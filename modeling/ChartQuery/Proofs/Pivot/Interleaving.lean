import ChartQuery.Proofs.Pivot.Batches
import Mathlib.Algebra.Group.Nat.Defs

namespace ChartQuery

namespace Counters

/-- The last ticket of a counter, 0 before the first one. -/
def last (c : Counters) (i : Nat) : UInt64 := (c.counters[i]?.map Generation.current).getD 0

variable {c : Counters} {h i j : Nat} {g : Generation}

theorem last_eq (hg : c.counters[i]? = some g) : c.last i = g.current := by
  simp [last, hg]

theorem last_advance_self (hi : c.handles[h]? = some i) (hg : c.counters[i]? = some g) :
    (c.advance h).last i = g.current + 1 := by
  simp [last, advance, hi, hg, Generation.next]

theorem last_advance_of_ne (hj : c.handles[h]? = some j) (hne : j ≠ i) :
    (c.advance h).last i = c.last i := by
  simp [last, advance, hj, hne]

theorem last_single : single.last i = 0 := by
  cases i <;> rfl

theorem last_clone : (c.clone h).last i = c.last i := by
  unfold clone last
  split <;> rfl

theorem last_add : c.add.last i = c.last i := by
  simp only [last, add, List.getElem?_append]
  split
  · rfl
  · next hlength =>
    have hnone : c.counters[i]? = none := by simpa using hlength
    cases hn : i - c.counters.length <;> simp [hnone, Generation.start]

theorem handles_advance : (c.advance h).handles = c.handles := by
  unfold advance
  split <;> rfl

theorem handles_prefix_clone : c.handles <+: (c.clone h).handles := by
  unfold clone
  split <;> simp

theorem handles_prefix_add : c.handles <+: c.add.handles := List.prefix_append ..

/-- Each handle has its counter. -/
def IsLinked (c : Counters) : Prop := ∀ i ∈ c.handles, i < c.counters.length

theorem isLinked_single : single.IsLinked := by
  simp [IsLinked, single]

theorem IsLinked.advance (hc : c.IsLinked) : (c.advance h).IsLinked := by
  unfold Counters.advance
  split
  · simpa [IsLinked] using hc
  · exact hc

theorem IsLinked.clone (hc : c.IsLinked) : (c.clone h).IsLinked := by
  unfold Counters.clone
  split
  · next i hi =>
    have hlt := hc i (List.mem_of_getElem? hi)
    exact List.forall_mem_append.2 ⟨hc, List.forall_mem_singleton.2 hlt⟩
  · exact hc

theorem IsLinked.add (hc : c.IsLinked) : c.add.IsLinked := by
  intro i hi
  simp only [Counters.add, List.mem_append, List.mem_singleton, List.length_append,
    List.length_singleton] at hi ⊢
  rcases hi with hi | rfl
  · exact (hc i hi).trans (Nat.lt_succ_self _)
  · exact Nat.lt_succ_self _

end Counters

/-- How far the aggregator is with a fetch. -/
inductive Phase where
  | idle
  | running (request : Request) (ticket : UInt64) (ends : TaskEnds)
  /-- All tasks have ended, and the generation has been read. -/
  | checked (fetch : Fetch)

def Phase.ticket? : Phase → Option UInt64
  | idle => none
  | running _ ticket _ => some ticket
  | checked fetch => some fetch.ticket

/-- Each task that has ended is that of another missing grouping. Once the generation has been read,
all of them have ended. -/
def Phase.IsOn (c : Cache) : Phase → Prop
  | idle => True
  | running r _ ends => (ends.map Prod.fst).Nodup ∧ ∀ g ∈ ends.map Prod.fst, g ∈ r.missing c
  | checked fetch => fetch.IsComplete c

/-- An aggregator, and the counters from which tickets are taken. -/
structure Session where
  counters : Counters
  /-- The handle of the aggregator. -/
  handle : Nat
  cache : Cache
  phase : Phase

inductive Event where
  /-- Someone takes a ticket through a handle, from the counter behind it. -/
  | advance (handle counter : Nat) (ticket : UInt64)
  | clone (handle : Nat)
  | add
  /-- The aggregator gets another handle. -/
  | adopt (handle : Nat)
  | start (request : Request) (ticket : UInt64) (queries : List ViewQuery)
  | endTask (grouping : Grouping) (e : TaskEnd)
  | check
  | finish (outcome : Request.Outcome)

namespace Event

/-- The ticket, if one is taken from this counter. -/
def ticket? (i : Nat) : Event → Option UInt64
  | advance _ j ticket => if j = i then some ticket else none
  | _ => none

def outcome? : Event → Option Request.Outcome
  | finish outcome => some outcome
  | _ => none

def isOfFetch : Event → Bool
  | start .. | endTask .. | check | finish _ => true
  | _ => false

end Event

/-- The tickets that are taken from a counter, through any of its handles. -/
def tickets (i : Nat) (events : List Event) : List UInt64 := events.filterMap (Event.ticket? i)

theorem tickets_append (i : Nat) (events events' : List Event) :
    tickets i (events ++ events') = tickets i events ++ tickets i events' :=
  List.filterMap_append

/-- What the fetches return, one after the other. -/
def outcomes (events : List Event) : List Request.Outcome := events.filterMap Event.outcome?

/-- A fetch from its start to its return, with all that happens meanwhile. -/
structure Call where
  request : Request
  ticket : UInt64
  queries : List ViewQuery
  /-- What happens until the generation is read. -/
  running : List Event
  returning : List Event
  outcome : Request.Outcome
  /-- The aggregator does not return before. -/
  pending : ∀ e ∈ running ++ returning, e.outcome? = none

namespace Call

def events (f : Call) : List Event :=
  .start f.request f.ticket f.queries ::
    (f.running ++ .check :: (f.returning ++ [.finish f.outcome]))

/-- What others do meanwhile. -/
def others (f : Call) : List Event := (f.running ++ f.returning).filter fun e => !e.isOfFetch

theorem tickets_events (f : Call) (i : Nat) :
    tickets i f.events = tickets i f.running ++ tickets i f.returning := by
  simp [events, tickets, List.filterMap_cons, Event.ticket?]

theorem filter_events (f : Call) : (f.events.filter fun e => !e.isOfFetch) = f.others := by
  simp [events, others, Event.isOfFetch]

theorem not_ready_of_mem_events {f : Call} (hstale : f.outcome = .stale) {e : Event}
    (he : e ∈ f.events) (results : Results) : e.outcome? ≠ some (.ready results) := by
  have hpending := List.forall_mem_append.1 f.pending
  simp only [events, List.mem_cons, List.mem_append, List.not_mem_nil, or_false] at he
  rcases he with rfl | he | rfl | he | rfl
  · simp [Event.outcome?]
  · simp [hpending.1 e he]
  · simp [Event.outcome?]
  · simp [hpending.2 e he]
  · simp [Event.outcome?, hstale]

end Call

namespace Session

def fresh : Session := ⟨.single, 0, .empty, .idle⟩

/-- The counter of the aggregator. -/
def counter? (s : Session) : Option Nat := s.counters.handles[s.handle]?

def idle (s : Session) : Session := { s with phase := .idle }

inductive Step (s : Session) : Event → Session → Prop
  | advance {h i : Nat} {g : Generation} {ticket : UInt64}
      (handle : s.counters.handles[h]? = some i) (counter : s.counters.counters[i]? = some g)
      (taken : g.advance.1 = ticket) :
      Step s (.advance h i ticket) { s with counters := s.counters.advance h }
  | clone (h : Nat) : Step s (.clone h) { s with counters := s.counters.clone h }
  | add : Step s .add { s with counters := s.counters.add }
  | adopt {h : Nat} (known : h < s.counters.handles.length) (idle : s.phase = .idle) :
      Step s (.adopt h) { s with handle := h }
  | start {r : Request} {queries : List ViewQuery} (ticket : UInt64) (idle : s.phase = .idle)
      (asked : r.queries s.cache = queries) :
      Step s (.start r ticket queries) { s with phase := .running r ticket [] }
  | endTask {r : Request} {ticket : UInt64} {ends : TaskEnds} {g : Grouping} (e : TaskEnd)
      (running : s.phase = .running r ticket ends) (missing : g ∈ r.missing s.cache)
      (once : g ∉ ends.map Prod.fst) :
      Step s (.endTask g e) { s with phase := .running r ticket (ends ++ [(g, e)]) }
  | check {r : Request} {ticket : UInt64} {ends : TaskEnds} {g : Generation}
      (running : s.phase = .running r ticket ends)
      (ended : ∀ g ∈ r.missing s.cache, g ∈ ends.map Prod.fst)
      (generation : s.counters.generation? s.handle = some g) :
      Step s .check { s with phase := .checked ⟨r, ticket, ends, g⟩ }
  | finish {f : Fetch} {c : Cache} {outcome : Request.Outcome} (checked : s.phase = .checked f)
      (run : f.run s.cache = (c, outcome)) :
      Step s (.finish outcome) { s with cache := c, phase := .idle }

inductive Run : Session → List Event → Session → Prop
  | nil (s : Session) : Run s [] s
  | cons {s t u : Session} {e : Event} {events : List Event} (step : Step s e t)
      (run : Run t events u) : Run s (e :: events) u

variable {s t u : Session} {e : Event} {events events' : List Event} {i : Nat} {k : UInt64}

theorem run_nil_iff : Run s [] t ↔ t = s := by
  constructor
  · rintro ⟨⟩
    rfl
  · rintro rfl
    exact .nil t

theorem run_cons_iff : Run s (e :: events) u ↔ ∃ t, Step s e t ∧ Run t events u := by
  constructor
  · rintro (_ | ⟨step, run⟩)
    exact ⟨_, step, run⟩
  · rintro ⟨t, step, run⟩
    exact .cons step run

theorem run_append_iff : Run s (events ++ events') u ↔ ∃ t, Run s events t ∧ Run t events' u := by
  induction events generalizing s with
  | nil => simp [run_nil_iff]
  | cons e events ih =>
    simp only [List.cons_append, run_cons_iff, ih]
    grind

/-- An event determines what it does. -/
theorem Step.eq (step : Step s e t) (step' : Step s e u) : t = u := by
  cases step <;> cases step' <;> simp_all

theorem Run.eq (run : Run s events t) (run' : Run s events u) : t = u := by
  induction run with
  | nil => exact (run_nil_iff.1 run').symm
  | cons step _ ih =>
    obtain ⟨t', step', run'⟩ := run_cons_iff.1 run'
    obtain rfl := step.eq step'
    exact ih run'

theorem run_append_iff_of_run (run : Run s events t) :
    Run s (events ++ events') u ↔ Run t events' u := by
  rw [run_append_iff]
  constructor
  · rintro ⟨t', run', hrun⟩
    rwa [run.eq run']
  · intro hrun
    exact ⟨t, run, hrun⟩

section Tickets

theorem Step.last (step : Step s e t) (i : Nat) :
    e.ticket? i = none ∧ t.counters.last i = s.counters.last i ∨
      e.ticket? i = some (t.counters.last i) ∧ t.counters.last i = s.counters.last i + 1 := by
  cases step with
  | @advance h j g _ handle counter taken =>
    subst taken
    by_cases hji : j = i
    · subst hji
      right
      simp [Event.ticket?, Counters.last_advance_self handle counter, Counters.last_eq counter,
        Generation.advance, Generation.next]
    · left
      simp [Event.ticket?, hji, Counters.last_advance_of_ne handle hji]
  | clone h => exact .inl ⟨rfl, Counters.last_clone⟩
  | add => exact .inl ⟨rfl, Counters.last_add⟩
  | adopt | start | endTask | check | finish => exact .inl ⟨rfl, rfl⟩

/-- As long as a counter does not overflow, it counts its tickets, each of which is greater than
all before. -/
theorem Run.ascends (run : Run s events t) (i : Nat)
    (few : (s.counters.last i).toNat + (tickets i events).length < 2 ^ 64) :
    (t.counters.last i).toNat = (s.counters.last i).toNat + (tickets i events).length ∧
      (∀ k ∈ tickets i events, s.counters.last i < k) ∧
      (tickets i events).Pairwise (· < ·) := by
  induction run with
  | nil => simp [tickets]
  | @cons s t u e events step run ih =>
    rcases step.last i with ⟨hticket, hlast⟩ | ⟨hticket, hlast⟩
    · have htickets : tickets i (e :: events) = tickets i events :=
        List.filterMap_cons_none hticket
      rw [htickets, ← hlast] at few ⊢
      exact ih few
    · have htickets : tickets i (e :: events) =
          t.counters.last i :: tickets i events := List.filterMap_cons_some hticket
      rw [htickets, List.length_cons] at few ⊢
      have hnext : (t.counters.last i).toNat = (s.counters.last i).toNat + 1 := by
        rw [hlast, UInt64.toNat_add]
        exact Nat.mod_eq_of_lt (by simp; omega)
      obtain ⟨hcount, hgreater, hascend⟩ := ih (by omega)
      have hlt : s.counters.last i < t.counters.last i := by
        rw [UInt64.lt_iff_toNat_lt]
        omega
      refine ⟨by omega, ?_, List.pairwise_cons.2 ⟨hgreater, hascend⟩⟩
      exact List.forall_mem_cons.2 ⟨hlt, fun k hk => UInt64.lt_trans hlt (hgreater k hk)⟩

/-- From a fresh session on, the last ticket of a counter tells how many were taken. -/
theorem Run.ascends_of_fresh (run : Run .fresh events t)
    (few : (tickets i events).length < 2 ^ 64) :
    (t.counters.last i).toNat = (tickets i events).length ∧
      (tickets i events).Pairwise (· < ·) := by
  have hlast : (fresh.counters.last i).toNat = 0 := congrArg UInt64.toNat Counters.last_single
  obtain ⟨hcount, -, hascend⟩ := run.ascends i (by omega)
  exact ⟨by omega, hascend⟩

end Tickets

section Fetch

theorem Step.handles_prefix (step : Step s e t) : s.counters.handles <+: t.counters.handles := by
  cases step with
  | advance => simp [Counters.handles_advance]
  | clone h => exact Counters.handles_prefix_clone
  | add => exact Counters.handles_prefix_add
  | adopt | start | endTask | check | finish => exact List.prefix_rfl

theorem Run.handles_prefix (run : Run s events t) :
    s.counters.handles <+: t.counters.handles := by
  induction run with
  | nil => exact List.prefix_rfl
  | cons step _ ih => exact step.handles_prefix.trans ih

theorem Step.isLinked (step : Step s e t) (hc : s.counters.IsLinked)
    (hs : s.handle < s.counters.handles.length) :
    t.counters.IsLinked ∧ t.handle < t.counters.handles.length := by
  have hlength := step.handles_prefix.length_le
  cases step with
  | advance => exact ⟨hc.advance, hs.trans_le hlength⟩
  | clone h => exact ⟨hc.clone, hs.trans_le hlength⟩
  | add => exact ⟨hc.add, hs.trans_le hlength⟩
  | adopt known idle => exact ⟨hc, known⟩
  | start | endTask | check | finish => exact ⟨hc, hs⟩

theorem Run.isLinked (run : Run s events t) (hc : s.counters.IsLinked)
    (hs : s.handle < s.counters.handles.length) :
    t.counters.IsLinked ∧ t.handle < t.counters.handles.length := by
  induction run with
  | nil => exact ⟨hc, hs⟩
  | cons step _ ih =>
    obtain ⟨hc', hs'⟩ := step.isLinked hc hs
    exact ih hc' hs'

/-- The aggregator always has a counter to read. -/
theorem Run.exists_generation (run : Run .fresh events s) :
    ∃ g, s.counters.generation? s.handle = some g := by
  obtain ⟨hc, hs⟩ := run.isLinked Counters.isLinked_single (by decide)
  exact ⟨_, Option.bind_eq_some_iff.2 ⟨_, List.getElem?_eq_getElem hs,
    List.getElem?_eq_getElem (hc _ (List.getElem_mem hs))⟩⟩

/-- A fetch whose tasks have ended can return. -/
theorem Run.exists_return (run : Run .fresh events s) {r : Request} {ends : TaskEnds}
    (running : s.phase = .running r k ends)
    (ended : ∀ g ∈ r.missing s.cache, g ∈ ends.map Prod.fst) :
    ∃ outcome t, Run s [.check, .finish outcome] t := by
  obtain ⟨g, hg⟩ := run.exists_generation
  exact ⟨_, _, .cons (.check running ended hg) (.cons (.finish rfl rfl) (.nil _))⟩

/-- Until it returns, a fetch keeps its ticket, and the aggregator its handle. -/
theorem Step.ticket?_eq (step : Step s e t) (hk : s.phase.ticket? = some k)
    (he : e.outcome? = none) :
    t.phase.ticket? = some k ∧ t.handle = s.handle := by
  cases step with
  | advance | clone | add => exact ⟨hk, rfl⟩
  | adopt known idle | start ticket idle asked =>
    rw [idle] at hk
    cases hk
  | endTask e running missing once | check running ended generation =>
    rw [running] at hk
    exact ⟨hk, rfl⟩
  | finish checked run => cases he

theorem Run.ticket?_eq (run : Run s events t) (hk : s.phase.ticket? = some k)
    (he : ∀ e ∈ events, e.outcome? = none) :
    t.phase.ticket? = some k ∧ t.handle = s.handle := by
  induction run with
  | nil => exact ⟨hk, rfl⟩
  | @cons s t u e events step run ih =>
    obtain ⟨he, hevents⟩ := List.forall_mem_cons.1 he
    obtain ⟨hk', hhandle⟩ := step.ticket?_eq hk he
    obtain ⟨hk'', hhandle'⟩ := ih hk' hevents
    exact ⟨hk'', hhandle'.trans hhandle⟩

/-- Once the generation has been read, nothing changes what the fetch will return. -/
theorem Step.checked (step : Step s e t) {f : Fetch} (hf : s.phase = .checked f)
    (he : e.outcome? = none) : t.phase = .checked f := by
  cases step with
  | advance | clone | add => exact hf
  | adopt known idle | start ticket idle asked => simp [idle] at hf
  | endTask e running missing once | check running ended generation => simp [running] at hf
  | finish checked run => cases he

theorem Run.checked (run : Run s events t) {f : Fetch} (hf : s.phase = .checked f)
    (he : ∀ e ∈ events, e.outcome? = none) : t.phase = .checked f := by
  induction run with
  | nil => exact hf
  | @cons s t u e events step run ih =>
    obtain ⟨he, hevents⟩ := List.forall_mem_cons.1 he
    exact ih (step.checked hf he) hevents

end Fetch

section Erasure

/-- No step but a return that is ready changes the cache. Apart from the phase, the other steps of
a fetch change nothing, and what others do does not depend on the phase. -/
theorem Step.erase (step : Step s e t) (he : ∀ results, e.outcome? ≠ some (.ready results)) :
    t.cache = s.cache ∧ if e.isOfFetch then t.idle = s.idle else Step s.idle e t.idle := by
  cases step with
  | advance handle counter taken => exact ⟨rfl, .advance handle counter taken⟩
  | clone h => exact ⟨rfl, .clone h⟩
  | add => exact ⟨rfl, .add⟩
  | adopt known idle => exact ⟨rfl, .adopt known rfl⟩
  | start | endTask | check => exact ⟨rfl, rfl⟩
  | @finish f c outcome checked run =>
    rcases f.run_cases s.cache with hstale | ⟨results, hready⟩
    · obtain ⟨rfl, -⟩ : s.cache = c ∧ .stale = outcome := Prod.mk.inj (hstale.symm.trans run)
      exact ⟨rfl, rfl⟩
    · obtain rfl : outcome = .ready results := by rw [← hready, run]
      exact absurd rfl (he results)

/-- Fetches that are not ready can be left out of a run. -/
theorem Run.erase (run : Run s events t)
    (he : ∀ e ∈ events, ∀ results, e.outcome? ≠ some (.ready results)) :
    t.cache = s.cache ∧ Run s.idle (events.filter fun e => !e.isOfFetch) t.idle := by
  induction run with
  | nil s => exact ⟨rfl, .nil s.idle⟩
  | @cons s t u e events step run ih =>
    obtain ⟨he, hevents⟩ := List.forall_mem_cons.1 he
    obtain ⟨hcache, herase⟩ := step.erase he
    obtain ⟨hcache', hrun⟩ := ih hevents
    refine ⟨hcache'.trans hcache, ?_⟩
    cases hfetch : e.isOfFetch with
    | true =>
      rw [hfetch, if_pos rfl] at herase
      rw [List.filter_cons_of_neg (by simp [hfetch]), ← herase]
      exact hrun
    | false =>
      rw [hfetch, if_neg Bool.false_ne_true] at herase
      rw [List.filter_cons_of_pos (by simp [hfetch])]
      exact .cons herase hrun

end Erasure

section Batches

theorem Step.isOn (step : Step s e t) (hs : s.phase.IsOn s.cache) : t.phase.IsOn t.cache := by
  cases step with
  | advance | clone | add | adopt => exact hs
  | start | finish => simp [Phase.IsOn]
  | endTask e running missing once =>
    rw [running] at hs
    obtain ⟨hnodup, hmissing⟩ := hs
    simp only [Phase.IsOn, List.map_append, List.map_cons, List.map_nil]
    constructor
    · refine List.nodup_append.2 ⟨hnodup, List.nodup_singleton _, ?_⟩
      exact fun a ha b hb hab => once (List.mem_singleton.1 hb ▸ hab ▸ ha)
    · exact List.forall_mem_append.2 ⟨hmissing, List.forall_mem_singleton.2 missing⟩
  | @check r _ _ _ running ended generation =>
    rw [running] at hs
    obtain ⟨hnodup, hmissing⟩ := hs
    refine (List.perm_ext_iff_of_nodup hnodup (r.missing_nodup s.cache)).2 fun g => ?_
    exact ⟨hmissing g, ended g⟩

theorem Run.exists_batches (run : Run s events t) (hs : s.phase.IsOn s.cache) {c : Cache}
    {log : List (Cache × Fetch)} (batches : Batches c log s.cache) :
    ∃ log', Batches c (log ++ log') t.cache ∧
      log'.map (fun e => (e.2.run e.1).2) = outcomes events := by
  induction run generalizing log with
  | nil => exact ⟨[], by simpa using batches, rfl⟩
  | @cons s t u e events step run ih =>
    have hon := step.isOn hs
    cases houtcome : e.outcome? with
    | none =>
      have hcache : t.cache = s.cache := (step.erase (by simp [houtcome])).1
      rw [outcomes, List.filterMap_cons_none houtcome]
      exact ih hon (hcache ▸ batches)
    | some outcome =>
      rw [outcomes, List.filterMap_cons_some houtcome]
      cases step with
      | @finish f d _ checked hrun =>
        rw [checked] at hs
        have hnext := batches.fetch f hs
        rw [hrun] at hnext
        obtain ⟨log', hbatches, houtcomes⟩ := ih hon hnext
        refine ⟨(s.cache, f) :: log', by simpa using hbatches, ?_⟩
        cases houtcome
        rw [List.map_cons, houtcomes, hrun, outcomes]
      | _ => cases houtcome

/-- Whatever happens between their steps, the fetches that return are a run of batches. -/
theorem exists_batches_of_run (run : Run .fresh events s) :
    ∃ log, Batches .empty log s.cache ∧
      log.map (fun e => (e.2.run e.1).2) = outcomes events :=
  run.exists_batches trivial .none

end Batches

section Call

variable {f : Call}

theorem run_events_iff : Run s f.events t ↔
    ∃ u v w, Run s (.start f.request f.ticket f.queries :: f.running) u ∧ Step u .check v ∧
      Run v f.returning w ∧ Step w (.finish f.outcome) t := by
  rw [Call.events, ← List.cons_append, run_append_iff]
  simp only [run_cons_iff, run_append_iff, run_nil_iff]
  grind

/-- A call reads the counter of the aggregator when its tasks have ended. It is ready if the
counter then is at its ticket. -/
theorem Run.isReady_iff_of_call (run : Run s f.events t) :
    ∃ u j, Run s (.start f.request f.ticket f.queries :: f.running) u ∧ t.counter? = some j ∧
      ((∃ results, f.outcome = .ready results) ↔ u.counters.last j = f.ticket) := by
  have hpending := List.forall_mem_append.1 f.pending
  obtain ⟨u, v, w, hrunning, hcheck, hreturning, hfinish⟩ := run_events_iff.1 run
  have hticket : u.phase.ticket? = some f.ticket := by
    obtain ⟨_, ⟨⟩, hrun⟩ := run_cons_iff.1 hrunning
    exact (hrun.ticket?_eq rfl hpending.1).1
  cases hcheck with
  | @check r k ends g running ended generation =>
    obtain rfl : k = f.ticket := by simpa [running, Phase.ticket?] using hticket
    obtain ⟨j, hj, hg⟩ := Option.bind_eq_some_iff.1 generation
    refine ⟨u, j, hrunning, ?_, ?_⟩
    -- Handles on other counters may come up meanwhile, but none changes its counter.
    · have hhandle := (hreturning.ticket?_eq rfl hpending.2).2
      obtain ⟨added, hadded⟩ := hreturning.handles_prefix
      cases hfinish
      simp only [counter?, hhandle, ← hadded]
      rw [List.getElem?_append_left (List.getElem?_eq_some_iff.1 hj).1, hj]
    · have hchecked := hreturning.checked rfl hpending.2
      cases hfinish with
      | finish checked run =>
        obtain rfl := Phase.checked.inj (checked.symm.trans hchecked)
        have hready := Fetch.isReady_iff (c := w.cache) (f := ⟨r, f.ticket, ends, g⟩)
        simpa [run, Counters.last_eq hg, Generation.isCurrent] using hready

/-- A call is ready exactly if after its ticket no other is taken until its tasks have ended. -/
theorem Run.isReady_iff {before since : List Event} {h : Nat}
    (run : Run .fresh (before ++ .advance h i f.ticket :: (since ++ f.events)) s)
    (few : (tickets i (before ++ .advance h i f.ticket :: (since ++ f.events))).length < 2 ^ 64)
    (hi : s.counter? = some i) :
    (∃ results, f.outcome = .ready results) ↔ tickets i (since ++ f.running) = [] := by
  -- The counter is at the ticket once it is taken, and leaves it for good with the next one.
  rw [List.append_cons] at run few
  simp only [tickets_append, f.tickets_events, List.length_append] at few
  rw [run_append_iff] at run
  obtain ⟨v, htaking, run⟩ := run
  obtain ⟨w, hsince, hcall⟩ := run_append_iff.1 run
  obtain ⟨u, j, hrunning, hj, hready⟩ := hcall.isReady_iff_of_call
  obtain rfl : i = j := Option.some.inj (hi.symm.trans hj)
  have hticket : v.counters.last i = f.ticket := by
    obtain ⟨_, -, htaken⟩ := run_append_iff.1 htaking
    obtain ⟨_, hadvance, hnil⟩ := run_cons_iff.1 htaken
    obtain rfl := run_nil_iff.1 hnil
    rcases hadvance.last i with ⟨hnone, -⟩ | ⟨hsome, -⟩
    · simp [Event.ticket?] at hnone
    · simpa [Event.ticket?] using hsome.symm
  have hlater : tickets i (since ++ .start f.request f.ticket f.queries :: f.running) =
      tickets i (since ++ f.running) := by
    simp [tickets, List.filterMap_cons, Event.ticket?]
  have hbefore : (tickets i (before ++ [.advance h i f.ticket])).length < 2 ^ 64 := by
    rw [tickets_append, List.length_append]
    omega
  have hfirst := (htaking.ascends_of_fresh hbefore).1
  have hafter : (v.counters.last i).toNat +
      (tickets i (since ++ .start f.request f.ticket f.queries :: f.running)).length < 2 ^ 64 := by
    rw [hfirst, hlater, tickets_append, tickets_append, List.length_append, List.length_append]
    omega
  have hcount := ((run_append_iff.2 ⟨w, hsince, hrunning⟩).ascends i hafter).1
  rw [hready, ← hticket, ← UInt64.toNat_inj, hcount, hlater, Nat.add_eq_left,
    List.length_eq_zero_iff]

/-- A stale call changes neither the cache nor anything else, so it may be left out. -/
theorem Run.of_stale_call (run : Run s f.events t) (hstale : f.outcome = .stale) :
    t.cache = s.cache ∧ Run s f.others t := by
  obtain ⟨hcache, hothers⟩ := run.erase fun e => Call.not_ready_of_mem_events hstale
  rw [f.filter_events] at hothers
  obtain ⟨u, v, w, hrunning, -, -, hfinish⟩ := run_events_iff.1 run
  have hs : s.idle = s := by
    obtain ⟨_, hstart, -⟩ := run_cons_iff.1 hrunning
    cases hstart with
    | start _ idle _ => rw [Session.idle, ← idle]
  have ht : t.idle = t := by
    cases hfinish
    rfl
  rw [hs, ht] at hothers
  exact ⟨hcache, hothers⟩

end Call

/-- However tickets are taken between the steps of the fetches of an aggregator, the tickets of
each counter ascend, and a fetch whose tasks have ended can return. It is ready exactly if no ticket
of its counter is taken between its own one and the end of its tasks. If it is stale, the cache is
as before, and all that happens afterwards may happen as well if the fetch is not made. -/
theorem stale_leaves_nothing_of_run {trace : List Event} (run : Run .fresh trace s)
    (few : ∀ i, (tickets i trace).length < 2 ^ 64) :
    (∀ i, (tickets i trace).Pairwise (· < ·)) ∧
    (∀ r k ends, s.phase = .running r k ends →
      (∀ g ∈ r.missing s.cache, g ∈ ends.map Prod.fst) →
      ∃ outcome t, Run s [.check, .finish outcome] t) ∧
    (∀ before h i since (f : Call),
      trace = before ++ .advance h i f.ticket :: (since ++ f.events) → s.counter? = some i →
      ((∃ results, f.outcome = .ready results) ↔ tickets i (since ++ f.running) = [])) ∧
    ∀ before (f : Call), trace = before ++ f.events → f.outcome = .stale →
      ∃ t, Run .fresh before t ∧ s.cache = t.cache ∧
        ∀ rest u, Run .fresh (trace ++ rest) u ↔ Run .fresh (before ++ f.others ++ rest) u := by
  refine ⟨fun i => ?_, ?_, ?_, ?_⟩
  · exact (run.ascends_of_fresh (few i)).2
  · exact fun r k ends running ended => run.exists_return running ended
  · rintro before h i since f rfl hi
    exact run.isReady_iff (few i) hi
  · rintro before f rfl hstale
    obtain ⟨t, hbefore, hcall⟩ := run_append_iff.1 run
    obtain ⟨hcache, hothers⟩ := hcall.of_stale_call hstale
    refine ⟨t, hbefore, hcache, fun rest u => ?_⟩
    rw [run_append_iff_of_run run, run_append_iff_of_run (run_append_iff.2 ⟨t, hbefore, hothers⟩)]

def flatRequest : Request := ⟨.sales false, .empty, 1⟩

/-- While the only task of the fetch runs, another ticket is taken. -/
def overtaken : Call where
  request := flatRequest
  ticket := 1
  queries := flatRequest.queries .empty
  running := [.endTask flatRequest.pivot.full (.rows Pivot.salesRows), .advance 1 0 2]
  returning := []
  outcome := .stale
  pending := by simp [Event.outcome?]

/-- Only the tickets are left of a fetch that is overtaken through a clone of its handle. -/
theorem stale_leaves_nothing_of_overtaken :
    Run .fresh ([.clone 0, .advance 0 0 1] ++ overtaken.events)
      ⟨⟨[⟨2⟩], [0, 0]⟩, 0, .empty, .idle⟩ ∧
    ((∃ results, overtaken.outcome = .ready results) ↔ tickets 0 overtaken.running = []) ∧
    ∀ rest u, Run .fresh ([.clone 0, .advance 0 0 1] ++ overtaken.events ++ rest) u ↔
      Run .fresh ([.clone 0, .advance 0 0 1, .advance 1 0 2] ++ rest) u := by
  have run : Run .fresh ([.clone 0, .advance 0 0 1] ++ overtaken.events)
      ⟨⟨[⟨2⟩], [0, 0]⟩, 0, .empty, .idle⟩ :=
    .cons (.clone 0) <| .cons (.advance rfl rfl rfl) <| .cons (.start 1 rfl rfl) <|
      .cons (.endTask _ rfl (by decide) (by decide)) <| .cons (.advance rfl rfl rfl) <|
      .cons (.check rfl (by decide) rfl) <| .cons (.finish rfl rfl) <| .nil _
  have few (i : Nat) :
      (tickets i ([.clone 0, .advance 0 0 1] ++ overtaken.events)).length < 2 ^ 64 :=
    (List.length_filterMap_le ..).trans_lt (by decide)
  obtain ⟨-, -, hready, hstale⟩ := stale_leaves_nothing_of_run run few
  obtain ⟨_, -, -, hleft⟩ := hstale [.clone 0, .advance 0 0 1] overtaken rfl rfl
  exact ⟨run, hready [.clone 0] 0 0 [] overtaken rfl rfl, hleft⟩

end Session

end ChartQuery
