import ChartQuery.Proofs.Pivot.Coherence
import Mathlib.Data.Finset.Filter
import Mathlib.Data.Finset.Dedup

namespace ChartQuery

/-- The cache has rows for the grouping, and its signature is this one. -/
def Cache.Remembers (c : Cache) (s : Signature) (g : Grouping) : Prop :=
  c.signature = some s ∧ c.contains g = true

instance (c : Cache) (s : Signature) (g : Grouping) : Decidable (c.Remembers s g) :=
  inferInstanceAs (Decidable (_ ∧ _))

theorem Cache.contains_iff {c : Cache} {g : Grouping} :
    c.contains g = true ↔ ∃ rows, c.get? g = some rows :=
  Option.isSome_iff_exists

theorem Cache.get?_validate_eq_some_iff {c : Cache} {s : Signature} {g : Grouping}
    {rows : List Row} :
    (c.validate s).get? g = some rows ↔ c.signature = some s ∧ c.get? g = some rows := by
  rw [get?_validate, ← isValidFor_iff]
  cases c.isValidFor s <;> simp

theorem Request.mem_missing_iff {r : Request} {c : Cache} {g : Grouping} :
    g ∈ r.missing c ↔ g ∈ r.groupings ∧ ¬ c.Remembers r.signature g := by
  rw [missing, List.mem_filter, Cache.Remembers, ← Cache.isValidFor_iff]
  simp [-not_and, Classical.not_and_iff_not_or_not]

theorem Request.get?_fetched_eq_some_iff {ends : TaskEnds} (hn : (ends.map Prod.fst).Nodup)
    {g : Grouping} {rows : List Row} :
    (fetched ends).get? g = some rows ↔ (g, TaskEnd.rows rows) ∈ ends := by
  constructor
  · exact mem_of_get?_fetched hn
  · exact get?_fetched hn

namespace Fetch

/-- The groupings whose queries were executed. -/
def executed (f : Fetch) : List Grouping := f.ends.map Prod.fst

def queries (f : Fetch) : List ViewQuery := f.executed.map f.request.query

/-- The query of the grouping was executed, and it ended with an error or was lost. -/
def Failed (f : Fetch) (g : Grouping) : Prop := ∃ e ∈ f.ends, e.1 = g ∧ e.2.rows? = none

instance (f : Fetch) (g : Grouping) : Decidable (f.Failed g) :=
  inferInstanceAs (Decidable (∃ _ ∈ _, _))

/-- Each grouping that was missing from the cache has a task of its own, and all of them have
ended. -/
def IsComplete (c : Cache) (f : Fetch) : Prop := f.executed.Perm (f.request.missing c)

/-- The results have the groupings of the request in their order, the failed ones among them, and
their rows as the cache then has them. The cache has what it had under the signature of the
request, and the rows that were fetched. -/
structure Settles (f : Fetch) (c : Cache) (results : Results) (d : Cache) : Prop where
  groupings : results.groupings = f.request.groupings
  rows : ∀ g ∈ f.request.groupings, results.get? g = some ((d.get? g).getD [])
  failed : results.failed = (f.request.missing c).filter (f.Failed ·)
  signature : d.signature = some f.request.signature
  entries : ∀ g rows, d.get? g = some rows ↔ (g, TaskEnd.rows rows) ∈ f.ends ∨
    c.signature = some f.request.signature ∧ c.get? g = some rows

section

variable {c : Cache} {f : Fetch} {g : Grouping} {rows : List Row}

theorem isReady_iff :
    (∃ results, (f.run c).2 = .ready results) ↔ f.generation.isCurrent f.ticket = true := by
  cases h : f.generation.isCurrent f.ticket with
  | false => simp [run_of_stale h]
  | true => simp [run_of_current h]

theorem mem_executed_of_mem_ends {e : TaskEnd} (h : (g, e) ∈ f.ends) : g ∈ f.executed :=
  List.mem_map_of_mem h

theorem exists_mem_ends (h : g ∈ f.executed) : ∃ e, (g, e) ∈ f.ends := by
  obtain ⟨⟨_, e⟩, he, rfl⟩ := List.mem_map.1 h
  exact ⟨e, he⟩

namespace IsComplete

theorem nodup (h : f.IsComplete c) : f.executed.Nodup :=
  h.nodup_iff.2 (f.request.missing_nodup c)

theorem mem_executed_iff (h : f.IsComplete c) :
    g ∈ f.executed ↔ g ∈ f.request.groupings ∧ ¬ c.Remembers f.request.signature g := by
  rw [h.mem_iff, Request.mem_missing_iff]

/-- A batch has for a grouping the rows that its task brought, or those that are remembered; it
never has both. -/
theorem taken?_eq_some_iff (h : f.IsComplete c) :
    f.request.taken? c f.ends g = some rows ↔ (g, TaskEnd.rows rows) ∈ f.ends ∨
      c.signature = some f.request.signature ∧ c.get? g = some rows := by
  rw [Request.taken?, Request.found?, Option.or_eq_some_iff,
    Request.get?_fetched_eq_some_iff h.nodup, Cache.get?_validate_eq_some_iff]
  constructor
  · rintro (hfetched | ⟨_, hcached⟩)
    · exact .inl hfetched
    · exact .inr hcached
  · rintro (hfetched | hcached)
    · exact .inl hfetched
    · refine .inr ⟨?_, hcached⟩
      have hremembered : c.Remembers f.request.signature g :=
        ⟨hcached.1, Cache.contains_iff.2 ⟨rows, hcached.2⟩⟩
      rw [Option.eq_none_iff_forall_ne_some]
      intro rows' hrows'
      have hexecuted := mem_executed_of_mem_ends (Request.mem_of_get?_fetched h.nodup hrows')
      exact (h.mem_executed_iff.1 hexecuted).2 hremembered

/-- In the end, those planned groupings have no rows whose queries were executed and failed. -/
theorem taken?_eq_none_iff (h : f.IsComplete c) (hg : g ∈ f.request.groupings) :
    f.request.taken? c f.ends g = none ↔ g ∈ f.request.missing c ∧ f.Failed g := by
  constructor
  · intro hnone
    have hnot : ∀ rows, f.request.taken? c f.ends g ≠ some rows := by simp [hnone]
    simp only [ne_eq, h.taken?_eq_some_iff, not_or] at hnot
    have hmissing : g ∈ f.request.missing c := by
      refine Request.mem_missing_iff.2 ⟨hg, fun hremembered => ?_⟩
      obtain ⟨rows, hrows⟩ := Cache.contains_iff.1 hremembered.2
      exact (hnot rows).2 ⟨hremembered.1, hrows⟩
    obtain ⟨e, he⟩ := exists_mem_ends (h.mem_iff.2 hmissing)
    refine ⟨hmissing, (g, e), he, rfl, ?_⟩
    cases e with
    | rows rows => exact absurd he (hnot rows).1
    | error error => rfl
    | lost report => rfl
  · rintro ⟨hmissing, ⟨_, e⟩, he, rfl, hfailed⟩
    rw [Option.eq_none_iff_forall_ne_some]
    intro rows hrows
    rcases h.taken?_eq_some_iff.1 hrows with hfetched | ⟨hsignature, hcached⟩
    · have hlookup := Request.get?_fetched h.nodup hfetched
      rw [Request.get?_fetched h.nodup he, hfailed] at hlookup
      cases hlookup
    · have hremembered := Cache.contains_iff.2 ⟨rows, hcached⟩
      exact (Request.mem_missing_iff.1 hmissing).2 ⟨hsignature, hremembered⟩

theorem queries_perm (h : f.IsComplete c) : f.queries.Perm (f.request.queries c) :=
  h.map f.request.query

/-- One query was executed for each planned grouping that is not remembered, and no other. -/
theorem queries_eq (h : f.IsComplete c) :
    (f.queries : Multiset ViewQuery) = ((f.request.groupings.toFinset.filter fun g =>
      ¬ c.Remembers f.request.signature g).val.map f.request.query) := by
  have hmissing : (f.request.missing c).toFinset =
      f.request.groupings.toFinset.filter fun g => ¬ c.Remembers f.request.signature g := by
    ext g
    simp [Request.mem_missing_iff]
  rw [← hmissing, List.toFinset_val, (f.request.missing_nodup c).dedup, Multiset.map_coe,
    Multiset.coe_eq_coe]
  exact h.queries_perm

theorem settles (h : f.IsComplete c) {results : Results} (hr : (f.run c).2 = .ready results) :
    f.Settles c results (f.run c).1 := by
  have hcurrent : f.generation.isCurrent f.ticket = true := isReady_iff.1 ⟨results, hr⟩
  rw [run_of_current hcurrent] at hr ⊢
  cases hr
  constructor
  case groupings => exact Request.groupings_settle ..
  case rows =>
    intro g hg
    rw [Request.results_get?_settle, Request.cache_get?_settle, if_pos hg, if_pos hg]
  case signature => exact Request.signature_settle ..
  case failed =>
    rw [Request.failed_settle, Request.missing, List.filter_filter]
    apply List.filter_congr
    intro g hg
    have hmem : g ∈ f.request.missing c ↔
        (!(c.isValidFor f.request.signature && c.contains g)) = true := by
      rw [Request.missing, List.mem_filter, and_iff_right hg]
    rw [Bool.eq_iff_iff, Option.isNone_iff_eq_none, h.taken?_eq_none_iff hg, hmem, and_comm,
      Bool.and_eq_true, decide_eq_true_iff]
  case entries =>
    intro g rows
    rw [Request.cache_get?_settle]
    split
    · exact h.taken?_eq_some_iff
    · next hg =>
      have hnot : (g, TaskEnd.rows rows) ∉ f.ends := fun hfetched =>
        hg (h.mem_executed_iff.1 (mem_executed_of_mem_ends hfetched)).1
      rw [Cache.get?_validate_eq_some_iff, or_iff_right hnot]

end IsComplete

/-- Rows that were fetched, or remembered before, are remembered after a batch that is ready. -/
theorem Settles.remembers {d : Cache} {results : Results} (h : f.Settles c results d)
    (hg : c.Remembers f.request.signature g ∨ g ∈ f.executed ∧ ¬ f.Failed g) :
    d.Remembers f.request.signature g := by
  refine ⟨h.signature, Cache.contains_iff.2 ?_⟩
  rcases hg with ⟨hsignature, hcontains⟩ | ⟨hexecuted, hok⟩
  · obtain ⟨rows, hrows⟩ := Cache.contains_iff.1 hcontains
    exact ⟨rows, (h.entries g rows).2 (.inr ⟨hsignature, hrows⟩)⟩
  · obtain ⟨e, he⟩ := exists_mem_ends hexecuted
    cases e with
    | rows rows => exact ⟨rows, (h.entries g rows).2 (.inl he)⟩
    | error error => exact absurd ⟨_, he, rfl, rfl⟩ hok
    | lost report => exact absurd ⟨_, he, rfl, rfl⟩ hok

variable (f c) in
theorem run_cases :
    f.run c = (c, .stale) ∨ ∃ results, (f.run c).2 = .ready results := by
  cases h : f.generation.isCurrent f.ticket with
  | false => exact .inl (run_of_stale h c)
  | true => exact .inr (isReady_iff.2 h)

end

end Fetch

/-- Runs of fetches on one cache, each fetch recorded with the cache that it found. -/
inductive Batches (start : Cache) : List (Cache × Fetch) → Cache → Prop
  | none : Batches start [] start
  | fetch {log : List (Cache × Fetch)} {c : Cache} (f : Fetch) (run : Batches start log c)
      (complete : f.IsComplete c) : Batches start (log ++ [(c, f)]) (f.run c).1

namespace Batches

variable {start c : Cache} {log : List (Cache × Fetch)} {s : Signature} {g : Grouping}

theorem isComplete (h : Batches start log c) : ∀ e ∈ log, e.2.IsComplete e.1 := by
  induction h with
  | none => simp
  | fetch f run complete ih =>
    intro e he
    rcases List.mem_append.1 he with he | he
    · exact ih e he
    · obtain rfl := List.mem_singleton.1 he
      exact complete

/-- Under one signature, what was fetched once is remembered for the rest of the run. -/
theorem remembers (h : Batches start log c) (hs : ∀ e ∈ log, e.2.request.signature = s)
    {e : Cache × Fetch} (he : e ∈ log) {results : Results}
    (hr : (e.2.run e.1).2 = .ready results) (hg : g ∈ e.2.executed) (hok : ¬ e.2.Failed g) :
    c.Remembers s g := by
  induction h with
  | none => cases he
  | @fetch log c f run complete ih =>
    obtain rfl : f.request.signature = s := hs (c, f) (by simp)
    rcases List.mem_append.1 he with he | he
    · have hc := ih (fun e he => hs e (List.mem_append_left _ he)) he
      rcases f.run_cases c with hstale | ⟨results, hready⟩
      · rw [hstale]
        exact hc
      · exact (complete.settles hready).remembers (.inl hc)
    · obtain rfl := List.mem_singleton.1 he
      exact (complete.settles hr).remembers (.inr ⟨hg, hok⟩)

/-- A grouping whose query was executed in a batch that is ready is executed again under the same
signature only if its query failed. -/
theorem failed_of_executed_again (h : Batches start log c)
    (hs : ∀ e ∈ log, e.2.request.signature = s) :
    log.Pairwise fun e e' => ∀ results, (e.2.run e.1).2 = .ready results →
      ∀ g ∈ e.2.executed, g ∈ e'.2.executed → e.2.Failed g := by
  induction h with
  | none => exact .nil
  | @fetch log c f run complete ih =>
    have hs' : ∀ e ∈ log, e.2.request.signature = s := fun e he =>
      hs e (List.mem_append_left _ he)
    refine List.pairwise_append.2 ⟨ih hs', List.pairwise_singleton .., ?_⟩
    intro e he e' he' results hr g hg hagain
    obtain rfl := List.mem_singleton.1 he'
    obtain rfl : f.request.signature = s := hs (c, f) (by simp)
    by_contra hok
    exact (complete.mem_executed_iff.1 hagain).2 (run.remembers hs' he hr hg hok)

end Batches

/-- Whatever fetches there were before, each one executes the queries it asks for, which are one for
each planned grouping that is not remembered. If it is ready, it gives all planned groupings and
keeps what was fetched, so that only failed ones are executed again under the same signature. -/
theorem settles_of_batches {start c : Cache} {log : List (Cache × Fetch)}
    (h : Batches start log c) :
    (∀ d f, (d, f) ∈ log →
      f.queries.Perm (f.request.queries d) ∧
      (f.queries : Multiset ViewQuery) = ((f.request.groupings.toFinset.filter fun g =>
        ¬ d.Remembers f.request.signature g).val.map f.request.query) ∧
      ∀ results, (f.run d).2 = .ready results → f.Settles d results (f.run d).1) ∧
    ∀ s, (∀ e ∈ log, e.2.request.signature = s) →
      log.Pairwise fun e e' => ∀ results, (e.2.run e.1).2 = .ready results →
        ∀ g ∈ e.2.executed, g ∈ e'.2.executed → e.2.Failed g := by
  constructor
  · intro d f hf
    have hcomplete := h.isComplete (d, f) hf
    exact ⟨hcomplete.queries_perm, hcomplete.queries_eq, fun results hr => hcomplete.settles hr⟩
  · intro s hs
    exact h.failed_of_executed_again hs

/-- After a batch in which the finest grouping failed, a second batch fetches that one alone. -/
theorem settles_of_repeated_fetch :
    Batches .empty [(.empty, failingFetch), ((failingFetch.run .empty).1, repeatedFetch)]
      (repeatedFetch.run (failingFetch.run .empty).1).1 ∧
    repeatedFetch.executed = [salesRequest.pivot.full] ∧
    ∀ g ∈ failingFetch.executed, g ∈ repeatedFetch.executed → failingFetch.Failed g := by
  have h : Batches .empty [(.empty, failingFetch), ((failingFetch.run .empty).1, repeatedFetch)]
      (repeatedFetch.run (failingFetch.run .empty).1).1 :=
    (Batches.none.fetch failingFetch possible_failingFetch.tasks).fetch repeatedFetch
      (Fetch.possible_answered ..).tasks
  have hsignature :
      ∀ e ∈ [(Cache.empty, failingFetch), ((failingFetch.run .empty).1, repeatedFetch)],
        e.2.request.signature = salesRequest.signature := by
    simp [failingFetch, repeatedFetch, Fetch.answered]
  have hagain := List.pairwise_pair.1 ((settles_of_batches h).2 _ hsignature)
  exact ⟨h, by decide, hagain _ rfl⟩

end ChartQuery
