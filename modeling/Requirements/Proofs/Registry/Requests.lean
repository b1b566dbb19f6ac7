import Mathlib
import Requirements.Proofs.Fallible
import Requirements.Proofs.Registry.Prefetch
import Requirements.Run

/-!
# What a fetch sends and what it takes from the answers

A fetch appends its requests to the log, and the last of them decides: its body is
read if it was answered with success, and nothing is got from it otherwise. The
requests before it have no part in the answer, be they repeated or sent under
another spelling of the name. Where a registry has a body for the package, that is
the body.

A registry that was asked before behaves as another registry that was not. So a
fetch after other fetches is a fetch of its own, from another registry, and the
packages of a prefetch can be looked at one by one.
-/

namespace Requirements

namespace Exchange

/-- The body of an answer that reports success. -/
def body? : Exchange → Option String
  | .reply status body => if 200 ≤ status && status < 300 then some body else none
  | .timedOut | .dropped | .unreachable => none

/-- Of all outcomes, a success alone is read. -/
theorem toOption_verdict (package registry url : String) (x : Exchange) :
    (x.verdict package registry url).toOption = x.body? := by
  cases x with
  | reply status body =>
      unfold verdict body?
      by_cases hsuccess : (200 ≤ status && status < 300) = true
      · have hstatus : 200 ≤ status ∧ status < 300 := by simpa using hsuccess
        have hlimit : (status == 429) = false := by simp; omega
        have hunknown : (status == 404) = false := by simp; omega
        simp [hlimit, hunknown, hsuccess, Except.toOption]
      · simp only [if_neg hsuccess]
        split
        · rfl
        · split <;> rfl
  | timedOut | dropped | unreachable => rfl

theorem isTransient_success {status : Nat} (h : 200 ≤ status ∧ status < 300)
    (body : String) : (Exchange.reply status body).isTransient = false := by
  simp [isTransient]
  omega

theorem body?_success {status : Nat} (h : 200 ≤ status ∧ status < 300) (body : String) :
    (Exchange.reply status body).body? = some body := by
  simp [body?, h]

theorem isTransient_of_verdict {package registry url body : String} {x : Exchange}
    (h : x.verdict package registry url = .ok body) : x.isTransient = false := by
  have hbody : x.body? = some body := by
    rw [← toOption_verdict package registry url, h]
    rfl
  cases x with
  | reply status text =>
      by_cases hsuccess : 200 ≤ status ∧ status < 300
      · exact isTransient_success hsuccess text
      · simp [body?, hsuccess] at hbody
  | timedOut | dropped | unreachable => cases hbody

theorem verdict_success {status : Nat} (h : 200 ≤ status ∧ status < 300)
    (body package registry url : String) :
    (Exchange.reply status body).verdict package registry url = .ok body := by
  rw [← toOption_eq_some, toOption_verdict, body?_success h]

end Exchange

/-- The body of the answer to the last of the requests, if it was a success. -/
def finalBody? (sent : List Request) : Option String :=
  sent.getLast?.bind fun q => q.exchange.body?

theorem finalBody?_concat (earlier front : List Request) (q : Request) :
    finalBody? (earlier ++ (front ++ [q])) = q.exchange.body? := by
  simp [finalBody?, ← List.append_assoc]

/-! ## The requests of one fetch -/

namespace Client

@[simp] theorem run_send (remote : Remote) (url : String) (log : List Request) :
    (send remote url).run log = (remote log url, log ++ [⟨url, remote log url⟩]) :=
  rfl

/-- Send a request until its outcome is decisive, at most `retries` more times
after the first, and report the last outcome. -/
def settle (remote : Remote) (url : String) : (retries : Nat) → Asking Exchange
  | 0 => send remote url
  | retries + 1 => do
      let exchange ← send remote url
      if exchange.isTransient then settle remote url retries else return exchange

/-- The error that is kept is that of the last outcome. So it makes no difference to
judge this outcome alone, whatever was kept before. -/
theorem run_attempt (c : Client) (package registry url : String) (last : Option RegistryError)
    (retries : Nat) (log : List Request) :
    (c.attempt package registry url last (retries + 1)).run log =
      (((settle c.remote url retries).run log).1.verdict package registry url,
        ((settle c.remote url retries).run log).2) := by
  induction retries generalizing last log with
  | zero =>
      rw [attempt, run_bind, run_send, settle, run_send]
      cases (c.remote log url).verdict package registry url with
      | ok body => rfl
      | error e =>
          dsimp only
          split <;> rfl
  | succ retries ih =>
      rw [attempt, run_bind, run_send, settle, run_bind, run_send]
      dsimp only
      cases hverdict : (c.remote log url).verdict package registry url with
      | ok body =>
          rw [if_neg (by simp [Exchange.isTransient_of_verdict hverdict])]
          exact congrArg (·, _) hverdict.symm
      | error e =>
          dsimp only
          split
          · exact ih (some e) _
          · exact congrArg (·, _) hverdict.symm

theorem run_get (c : Client) (package registry url : String) (log : List Request) :
    (c.get package registry url).run log =
      (((settle c.remote url c.retries).run log).1.verdict package registry url,
        ((settle c.remote url c.retries).run log).2) :=
  c.run_attempt package registry url none c.retries log

/-- However often a request is repeated, the last outcome is the one reported. -/
theorem run_settle (remote : Remote) (url : String) (retries : Nat) (log : List Request) :
    ∃ front x, (settle remote url retries).run log = (x, log ++ (front ++ [⟨url, x⟩])) := by
  induction retries generalizing log with
  | zero => exact ⟨[], remote log url, rfl⟩
  | succ retries ih =>
      rw [settle, run_bind, run_send]
      split
      · obtain ⟨front, x, hx⟩ := ih (log ++ [⟨url, remote log url⟩])
        exact ⟨⟨url, remote log url⟩ :: front, x, by rw [hx]; simp⟩
      · exact ⟨[], remote log url, rfl⟩

/-- An outcome that is not transient is the first and the last one. -/
theorem run_settle_of_steady {remote : Remote} {url : String} {x : Exchange}
    (h : ∀ log, remote log url = x) (hx : x.isTransient = false) (retries : Nat)
    (log : List Request) : (settle remote url retries).run log = (x, log ++ [⟨url, x⟩]) := by
  cases retries with
  | zero => rw [settle, run_send, h]
  | succ retries =>
      rw [settle, run_bind, run_send, h, hx]
      rfl

/-- The outcome that a request settles on is judged and, if it is a success, read. -/
theorem run_fetchReleases {c : Client} {e : Ecosystem} {base package url : String}
    {log sent : List Request} {x : Exchange} (hurl : Address.url e base package = .ok url)
    (hx : (settle c.remote (Address.onWire url) c.retries).run log = (x, sent)) :
    (c.fetchReleases e base package).run log =
      (x.verdict package e.registryName (Address.onWire url) >>=
        e.readListing package (Address.onWire url), sent) := by
  have hget : (c.get package e.registryName (Address.onWire url)).run log =
      (x.verdict package e.registryName (Address.onWire url), sent) := by
    rw [run_get, hx]
  rw [fetchReleases, hurl, run_bind, hget]
  cases x.verdict package e.registryName (Address.onWire url) <;> rfl

end Client

/-- Every name has an address, and a body is read in one way whatever the name that
it was asked for by. -/
structure Ecosystem.IsReadBy (e : Ecosystem) (read : String → Option ReleaseSet) : Prop where
  url : ∀ base package, ∃ url, Address.url e base package = .ok url
  listing : ∀ package url body, (e.readListing package url body).toOption = read body

section

variable {e : Ecosystem} {read : String → Option ReleaseSet}

/-- The releases are those of the last request, and there has been one. -/
def IsLastRead (read : String → Option ReleaseSet) (log : List Request)
    (fetched : Answer × List Request) : Prop :=
  ∃ front q, fetched.2 = log ++ (front ++ [q]) ∧
    fetched.1.toOption = q.exchange.body?.bind read

theorem isLastRead_fetchReleases (he : e.IsReadBy read) (c : Client) (base package : String)
    (log : List Request) : IsLastRead read log ((c.fetchReleases e base package).run log) := by
  obtain ⟨url, hurl⟩ := he.url base package
  obtain ⟨front, x, hx⟩ := Client.run_settle c.remote (Address.onWire url) c.retries log
  have hrun := Client.run_fetchReleases hurl hx
  refine ⟨front, _, congrArg Prod.snd hrun, ?_⟩
  rw [hrun, ← Exchange.toOption_verdict package e.registryName (Address.onWire url)]
  cases x.verdict package e.registryName (Address.onWire url) with
  | error failure => rfl
  | ok body => exact he.listing package (Address.onWire url) body

/-- The second try under the normalized name comes after the first. -/
theorem isLastRead_fetchWithFallback (he : e.IsReadBy read) (c : Client) (base : String)
    {package : String} (hblank : Text.isBlankText package = false) (log : List Request) :
    IsLastRead read log
      ((fetchWithFallback e.registryName (c.fetchReleases e base) package).run log) := by
  have hfirst := isLastRead_fetchReleases he c base package log
  rw [fetchWithFallback, hblank, if_neg (by decide), run_bind]
  generalize (c.fetchReleases e base package).run log = first at hfirst ⊢
  obtain ⟨answer, sent⟩ := first
  cases answer with
  | ok set => exact hfirst
  | error failure =>
      dsimp only
      split
      · obtain ⟨front, q, hsent, -⟩ := hfirst
        obtain ⟨front', q', hsent', hlast⟩ :=
          isLastRead_fetchReleases he c base (normalizeName package) sent
        refine ⟨front ++ q :: front', q', ?_, hlast⟩
        rw [hsent', show sent = log ++ (front ++ [q]) from hsent]
        simp
      · exact hfirst

/-- What is fetched for a package, asked for on its own: the answer and the requests. -/
def Client.course (c : Client) (e : Ecosystem) (base package : String) : Answer × List Request :=
  (fetchWithFallback e.registryName (c.fetchReleases e base) package).run []

theorem course_of_isBlankText (c : Client) (e : Ecosystem) (base : String) {package : String}
    (h : Text.isBlankText package = true) :
    c.course e base package = (.error (.blankName package e.registryName), []) := by
  rw [Client.course, fetchWithFallback, if_pos h]
  rfl

/-- Releases are got where the last request brings a listing, and are what is read
from it. -/
theorem toOption_course (he : e.IsReadBy read) (c : Client) (base package : String) :
    (c.course e base package).1.toOption =
      (finalBody? (c.course e base package).2).bind read := by
  cases hblank : Text.isBlankText package with
  | true =>
      rw [course_of_isBlankText c e base hblank]
      rfl
  | false =>
      obtain ⟨front, q, hsent, hanswer⟩ := isLastRead_fetchWithFallback he c base hblank []
      rw [Client.course, hanswer, hsent, finalBody?_concat]

/-- The registry has a body for a package. It sends it whenever it is asked for the
package, or it does not know this name and sends it for the normalized one. -/
inductive Remote.Serves (remote : Remote) (e : Ecosystem) (base package body : String) : Prop
  | named {url : String} {status : Nat} (hurl : Address.url e base package = .ok url)
      (hstatus : 200 ≤ status ∧ status < 300)
      (h : ∀ log, remote log (Address.onWire url) = .reply status body)
  | normalized {url normalUrl missing : String} {status : Nat}
      (hurl : Address.url e base package = .ok url)
      (hmissing : ∀ log, remote log (Address.onWire url) = .reply 404 missing)
      (hnormal : Address.url e base (normalizeName package) = .ok normalUrl)
      (hstatus : 200 ≤ status ∧ status < 300)
      (h : ∀ log, remote log (Address.onWire normalUrl) = .reply status body)

/-- A listing that the registry has for a package is brought by the last request. -/
theorem finalBody?_course (he : e.IsReadBy read) (c : Client) {base package body : String}
    (hblank : Text.isBlankText package = false) (hserves : c.remote.Serves e base package body)
    {set : ReleaseSet} (hread : read body = some set) :
    finalBody? (c.course e base package).2 = some body := by
  have hok (package url : String) : (.ok body >>= e.readListing package url) = .ok set :=
    toOption_eq_some.1 ((he.listing package url body).trans hread)
  rw [Client.course, fetchWithFallback, hblank, if_neg (by decide), run_bind]
  cases hserves with
  | @named url status hurl hstatus h =>
      have hsettle := Client.run_settle_of_steady h
        (Exchange.isTransient_success hstatus body) c.retries []
      rw [Client.run_fetchReleases hurl hsettle, Exchange.verdict_success hstatus, hok]
      exact (finalBody?_concat [] [] _).trans (Exchange.body?_success hstatus body)
  | @normalized url normalUrl missing status hurl hmissing hnormal hstatus h =>
      have hother : (normalizeName package != package) = true := by
        refine bne_iff_ne.2 fun hsame => ?_
        -- The registry cannot both have and not have the one name.
        rw [hsame, hurl] at hnormal
        obtain rfl := Except.ok.inj hnormal
        have hreply := (h []).symm.trans (hmissing [])
        obtain ⟨rfl, -⟩ := Exchange.reply.inj hreply
        omega
      have hfirst := Client.run_fetchReleases hurl
        (Client.run_settle_of_steady hmissing rfl c.retries [])
      have hsecond := Client.run_fetchReleases hnormal (Client.run_settle_of_steady h
        (Exchange.isTransient_success hstatus body) c.retries
        ([] ++ [⟨Address.onWire url, .reply 404 missing⟩]))
      have hmiss : (Exchange.reply 404 missing).verdict package e.registryName
          (Address.onWire url) = .error (.notFound package e.registryName) := rfl
      have hnotFound : (RegistryError.notFound package e.registryName).isNotFound = true := rfl
      rw [hfirst, hmiss]
      dsimp only [bind, Except.bind]
      rw [hnotFound, hother, if_pos (by decide), hsecond]
      exact (finalBody?_concat _ [] _).trans (Exchange.body?_success hstatus body)

end

/-! ## One fetch after another -/

/-- A registry as it is met after other requests. -/
def Remote.after (remote : Remote) (earlier : List Request) : Remote :=
  fun log => remote (earlier ++ log)

theorem Remote.after_after (remote : Remote) (earlier later : List Request) :
    (remote.after earlier).after later = remote.after (earlier ++ later) := by
  funext log
  simp only [after, List.append_assoc]

/-- Requests come to the same after earlier ones as on their own, from the registry
as it is met after those. -/
def Relocates {α : Type} (ask : Remote → Asking α) : Prop :=
  ∀ remote earlier, (ask remote).run earlier =
    (((ask (remote.after earlier)).run []).1, earlier ++ ((ask (remote.after earlier)).run []).2)

theorem relocates_pure {α : Type} (x : α) : Relocates fun _ => (pure x : Asking α) :=
  fun _ earlier => Prod.ext rfl (List.append_nil earlier).symm

theorem Relocates.bind {α β : Type} {ask : Remote → Asking α} {next : α → Remote → Asking β}
    (hask : Relocates ask) (hnext : ∀ x, Relocates (next x)) :
    Relocates fun remote => ask remote >>= fun x => next x remote := by
  intro remote earlier
  simp only [run_bind]
  rw [hask remote earlier]
  generalize (ask (remote.after earlier)).run [] = asked
  obtain ⟨x, sent⟩ := asked
  dsimp only
  rw [hnext x remote, hnext x (remote.after earlier) sent, remote.after_after, List.append_assoc]

theorem relocates_send (url : String) : Relocates fun remote => Client.send remote url := by
  intro remote earlier
  simp only [Client.run_send, Remote.after, List.append_nil, List.nil_append]

theorem relocates_attempt (retries : Nat) (package registry url : String)
    (last : Option RegistryError) (left : Nat) :
    Relocates fun remote =>
      (⟨remote, retries⟩ : Client).attempt package registry url last left := by
  induction left generalizing last with
  | zero => exact relocates_pure _
  | succ left ih =>
      refine (relocates_send url).bind fun x => ?_
      split
      · exact relocates_pure _
      · split
        · exact ih _
        · exact relocates_pure _

theorem relocates_fetchReleases (retries : Nat) (e : Ecosystem) (base package : String) :
    Relocates fun remote => (⟨remote, retries⟩ : Client).fetchReleases e base package := by
  unfold Client.fetchReleases
  split
  · exact relocates_pure _
  · refine Relocates.bind (relocates_attempt retries _ _ _ none (retries + 1)) fun x => ?_
    split
    · exact relocates_pure _
    · exact relocates_pure _

theorem relocates_fetchWithFallback (retries : Nat) (e : Ecosystem) (base package : String) :
    Relocates fun remote => fetchWithFallback e.registryName
      ((⟨remote, retries⟩ : Client).fetchReleases e base) package := by
  unfold fetchWithFallback
  split
  · exact relocates_pure _
  · refine (relocates_fetchReleases retries e base package).bind fun answer => ?_
    split
    · dsimp only
      split
      · exact relocates_fetchReleases retries e base _
      · exact relocates_pure _
    · exact relocates_pure _

/-! ## The fetches of a run -/

namespace Prefetch

/-- The packages are fetched one after the other, each from a registry of its own:
the one registry, as it is met by then. -/
theorem run_mapM {ask : String → Remote → Asking Answer} (hask : ∀ name, Relocates (ask name))
    {names : List String} (hnames : names.Nodup) (remote : Remote) (earlier : List Request) :
    ∃ remotes : String → Remote,
      (names.mapM fun name => do return (name, ← ask name remote)).run earlier =
        (names.map fun name => (name, ((ask name (remotes name)).run []).1),
          earlier ++ names.flatMap fun name => ((ask name (remotes name)).run []).2) := by
  induction names generalizing earlier with
  | nil => exact ⟨fun _ => remote, Prod.ext rfl (List.append_nil earlier).symm⟩
  | cons name names ih =>
      obtain ⟨hname, hrest⟩ := List.nodup_cons.1 hnames
      let first := (ask name (remote.after earlier)).run []
      have hfirst : (do return (name, ← ask name remote) : Asking (String × Answer)).run earlier =
          ((name, first.1), earlier ++ first.2) := by
        rw [run_bind, hask]
        rfl
      obtain ⟨remotes, hremotes⟩ := ih hrest (earlier ++ first.2)
      let others := Function.update remotes name (remote.after earlier)
      have hother : ∀ other ∈ names, others other = remotes other := fun other hmem =>
        Function.update_of_ne (ne_of_mem_of_not_mem hmem hname) _ _
      have hanswers : (names.map fun other => (other, ((ask other (others other)).run []).1)) =
          names.map fun other => (other, ((ask other (remotes other)).run []).1) :=
        List.map_congr_left fun other hmem => by rw [hother other hmem]
      have hsent : (names.flatMap fun other => ((ask other (others other)).run []).2) =
          names.flatMap fun other => ((ask other (remotes other)).run []).2 :=
        List.flatMap_congr fun other hmem => by rw [hother other hmem]
      refine ⟨others, ?_⟩
      rw [List.mapM_cons, run_bind, hfirst, run_bind, hremotes, List.map_cons,
        List.flatMap_cons, hanswers, hsent, show others name = remote.after earlier from
          Function.update_self .., ← List.append_assoc]
      rfl

end Prefetch

/-- The index of a run is one of answers that arrived, each got from a registry by
itself, and the requests of the run are those of the packages in order. -/
theorem Run.run_prefetch (remote : Remote) (t : Task) (earlier : List Request) :
    ∃ remotes : String → Remote,
      let course (name : String) := (⟨remotes name, t.settings.http.maxRetries⟩ : Client).course
        t.ecosystem ((t.settings.urlFor t.ecosystem).getD (Address.publicBase t.ecosystem)) name
      let names := Prefetch.pending (t.requirements.map (·.name))
      (prefetch remote t).run earlier =
        ((Prefetch.collect t.ecosystem.registryName
            (names.map fun name => (name, (course name).1))).1,
          earlier ++ names.flatMap fun name => (course name).2) := by
  have hask (name : String) := relocates_fetchWithFallback t.settings.http.maxRetries t.ecosystem
    ((t.settings.urlFor t.ecosystem).getD (Address.publicBase t.ecosystem)) name
  obtain ⟨remotes, hremotes⟩ := Prefetch.run_mapM hask
    (Prefetch.nodup_pending (t.requirements.map (·.name))) remote earlier
  refine ⟨remotes, ?_⟩
  intro course names
  rw [prefetch, run_bind, Prefetch.run, run_bind, hremotes]
  rfl

end Requirements
