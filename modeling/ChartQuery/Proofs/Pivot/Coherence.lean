import ChartQuery.Proofs.Pivot.Settling

namespace ChartQuery

/-- One fetch, with all that its outcome depends on besides the cache. -/
structure Fetch where
  request : Request
  ticket : UInt64
  /-- How the tasks of the batch ended, in that order. -/
  ends : TaskEnds
  /-- The generation once all tasks have ended. -/
  generation : Generation

namespace Fetch

def run (f : Fetch) (c : Cache) : Cache × Request.Outcome :=
  f.request.finish c f.ends f.generation f.ticket

/-- The tasks are those of the missing groupings, in any order. Each ends in some way, but if it
brings rows, these are the answer to its query. -/
structure Possible (answer : UInt64 → ViewQuery → List Row) (c : Cache) (f : Fetch) : Prop where
  tasks : (f.ends.map Prod.fst).Perm (f.request.missing c)
  answers : ∀ g rows, (g, TaskEnd.rows rows) ∈ f.ends →
    rows = answer f.request.version (f.request.query g)

def answered (answer : UInt64 → ViewQuery → List Row) (r : Request) (c : Cache)
    (ticket : UInt64) : Fetch :=
  ⟨r, ticket, (r.missing c).map fun g => (g, .rows (answer r.version (r.query g))), ⟨ticket⟩⟩

theorem possible_answered (answer : UInt64 → ViewQuery → List Row) (r : Request) (c : Cache)
    (ticket : UInt64) : (answered answer r c ticket).Possible answer c := by
  constructor
  · simp [answered, Function.comp_def]
  · intro g rows h
    simp only [answered, List.mem_map, Prod.mk.injEq, TaskEnd.rows.injEq] at h
    obtain ⟨g', -, rfl, rfl⟩ := h
    rfl

theorem run_of_stale {f : Fetch} (h : f.generation.isCurrent f.ticket = false) (c : Cache) :
    f.run c = (c, .stale) := by
  simp [run, Request.finish, h]

theorem run_of_current {f : Fetch} (h : f.generation.isCurrent f.ticket = true) (c : Cache) :
    f.run c = ((f.request.settle c f.ends).1, .ready (f.request.settle c f.ends).2) := by
  simp [run, Request.finish, h]

end Fetch

variable (answer : UInt64 → ViewQuery → List Row)

/-- Runs from an empty cache: the fetches with their outcomes, and the cache after them. -/
inductive Run : List (Fetch × Request.Outcome) → Cache → Prop
  | fresh : Run [] .empty
  | fetch {log : List (Fetch × Request.Outcome)} {c : Cache} (f : Fetch) (run : Run log c)
      (possible : f.Possible answer c) : Run (log ++ [(f, (f.run c).2)]) (f.run c).1

/-- Each entry is the answer to its query under the signature of the cache. -/
def Cache.Coherent (c : Cache) : Prop :=
  ∀ g rows, c.get? g = some rows →
    ∃ s, c.signature = some s ∧ rows = answer s.version (g.query s.measures s.aggregated)

/-- The results have the answer for each grouping of the request, or no rows where it failed. -/
def Results.Answered (results : Results) (r : Request) : Prop :=
  results.groupings = r.groupings ∧
    ∀ g ∈ results.groupings, results.get? g =
      some (if g ∈ results.failed then []
        else answer r.version (g.query r.pivot.measures r.pivot.options.aggregated))

variable {answer}

theorem Cache.coherent_empty : Cache.empty.Coherent answer := by
  intro g rows h
  simp [empty, get?] at h

namespace Request

variable {r : Request} {c : Cache} {ends : TaskEnds} {g : Grouping} {rows : List Row}

theorem eq_answer_of_get?_validate (hc : c.Coherent answer)
    (h : (c.validate r.signature).get? g = some rows) :
    rows = answer r.version (r.query g) := by
  rw [Cache.get?_validate] at h
  cases hv : c.isValidFor r.signature with
  | false => simp [hv] at h
  | true =>
    rw [hv, if_pos rfl] at h
    obtain ⟨s, hs, rfl⟩ := hc g rows h
    have hsig : c.signature = some r.signature := (c.isValidFor_iff _).mp hv
    obtain rfl : s = r.signature := by simpa [hs] using hsig
    rfl

theorem eq_answer_of_taken? (hc : c.Coherent answer) (hn : (ends.map Prod.fst).Nodup)
    (ha : ∀ g rows, (g, TaskEnd.rows rows) ∈ ends → rows = answer r.version (r.query g))
    (h : r.taken? c ends g = some rows) : rows = answer r.version (r.query g) := by
  rcases Option.or_eq_some_iff.mp h with h | ⟨-, h⟩
  · exact ha g rows (mem_of_get?_fetched hn h)
  · exact eq_answer_of_get?_validate hc h

theorem coherent_settle (hc : c.Coherent answer) (hn : (ends.map Prod.fst).Nodup)
    (ha : ∀ g rows, (g, TaskEnd.rows rows) ∈ ends → rows = answer r.version (r.query g)) :
    (r.settle c ends).1.Coherent answer := by
  intro g rows h
  refine ⟨r.signature, signature_settle r c ends, ?_⟩
  rw [cache_get?_settle] at h
  by_cases hg : g ∈ r.groupings
  · rw [if_pos hg] at h
    exact eq_answer_of_taken? hc hn ha h
  · rw [if_neg hg] at h
    exact eq_answer_of_get?_validate hc h

theorem answered_settle (hc : c.Coherent answer) (hn : (ends.map Prod.fst).Nodup)
    (ha : ∀ g rows, (g, TaskEnd.rows rows) ∈ ends → rows = answer r.version (r.query g)) :
    (r.settle c ends).2.Answered answer r := by
  refine ⟨groupings_settle r c ends, fun g hg => ?_⟩
  rw [groupings_settle] at hg
  rw [results_get?_settle, if_pos hg, failed_settle]
  cases ht : r.taken? c ends g with
  | none => simp [hg, ht]
  | some rows =>
    obtain rfl := eq_answer_of_taken? hc hn ha ht
    simp [ht, query]

end Request

theorem Fetch.coherent_run {c : Cache} {f : Fetch} (hc : c.Coherent answer)
    (hf : f.Possible answer c) :
    (f.run c).1.Coherent answer ∧
      ∀ results, (f.run c).2 = .ready results → results.Answered answer f.request := by
  have hn : (f.ends.map Prod.fst).Nodup := hf.tasks.nodup_iff.mpr (f.request.missing_nodup c)
  cases hcur : f.generation.isCurrent f.ticket with
  | false =>
    rw [run_of_stale hcur]
    exact ⟨hc, fun results h => by simp at h⟩
  | true =>
    rw [run_of_current hcur]
    refine ⟨Request.coherent_settle hc hn hf.answers, fun results h => ?_⟩
    obtain rfl : (f.request.settle c f.ends).2 = results := by simpa using h
    exact Request.answered_settle hc hn hf.answers

/-- After each fetch of a run the cache holds only answers under its signature, and all results
of the run show the answers to what was asked for, or nothing where a query failed. -/
theorem coherent_of_run {log : List (Fetch × Request.Outcome)} {c : Cache}
    (h : Run answer log c) :
    c.Coherent answer ∧
      ∀ f results, (f, Request.Outcome.ready results) ∈ log →
        results.Answered answer f.request := by
  induction h with
  | fresh => exact ⟨Cache.coherent_empty, by simp⟩
  | @fetch log c f run possible ih =>
    obtain ⟨hc, hr⟩ := Fetch.coherent_run ih.1 possible
    refine ⟨hc, fun f' results hm => ?_⟩
    rcases List.mem_append.mp hm with hm | hm
    · exact ih.2 f' results hm
    · obtain ⟨rfl, ho⟩ : f' = f ∧ Request.Outcome.ready results = (f.run c).2 := by
        simpa using hm
      exact hr results ho.symm

def salesRequest : Request := ⟨Pivot.sales true, Pivot.salesCollapsed, 1⟩

def salesAnswer (_ : UInt64) (_ : ViewQuery) : List Row := Pivot.salesRows

/-- The query of the finest grouping fails, all others are answered. -/
def failingFetch : Fetch :=
  ⟨salesRequest, 1, salesRequest.groupings.map fun g =>
    (g, if g = salesRequest.pivot.full then .error (.failed "timeout") else .rows Pivot.salesRows),
    ⟨1⟩⟩

def repeatedFetch : Fetch := .answered salesAnswer salesRequest (failingFetch.run .empty).1 2

theorem possible_failingFetch : failingFetch.Possible salesAnswer .empty := by
  constructor
  · rw [Request.missing_empty]
    simp [failingFetch, Function.comp_def]
  · intro g rows h
    simp only [failingFetch, List.mem_map, Prod.mk.injEq] at h
    obtain ⟨g', -, rfl, h⟩ := h
    split at h
    · simp at h
    · exact (TaskEnd.rows.inj h).symm

theorem coherent_of_repeated_fetch :
    Run salesAnswer
      [(failingFetch, (failingFetch.run .empty).2),
        (repeatedFetch, (repeatedFetch.run (failingFetch.run .empty).1).2)]
      (repeatedFetch.run (failingFetch.run .empty).1).1 ∧
    (repeatedFetch.run (failingFetch.run .empty).1).1.Coherent salesAnswer := by
  have h := (Run.fresh.fetch failingFetch possible_failingFetch).fetch repeatedFetch
    (Fetch.possible_answered ..)
  exact ⟨h, (coherent_of_run h).1⟩

end ChartQuery
