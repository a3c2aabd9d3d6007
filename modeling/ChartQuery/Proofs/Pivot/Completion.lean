import ChartQuery.Proofs.Pivot.Interleaving

namespace ChartQuery

namespace Request

variable {ends ends' : TaskEnds}

theorem get?_fetched_congr (hn : (ends.map Prod.fst).Nodup) (h : ends.Perm ends') (g : Grouping) :
    (fetched ends).get? g = (fetched ends').get? g := by
  have hn' : (ends'.map Prod.fst).Nodup := (h.map Prod.fst).nodup_iff.1 hn
  apply Option.ext
  intro rows
  rw [get?_fetched_eq_some_iff hn, get?_fetched_eq_some_iff hn', h.mem_iff]

/-- Of what was fetched, only the rows of each grouping count. -/
theorem settleOne_congr {m m' : Memo Grouping (List Row)} (h : ∀ g, m.get? g = m'.get? g) :
    settleOne m = settleOne m' := by
  funext s g
  unfold settleOne
  rw [h g]

theorem settle_congr (r : Request) (c : Cache) (hn : (ends.map Prod.fst).Nodup)
    (h : ends.Perm ends') : r.settle c ends = r.settle c ends' := by
  rw [settle, settle, settleOne_congr (get?_fetched_congr hn h)]

end Request

namespace Event

/-- The grouping whose task ends, with how it ends. -/
def taskEnd? : Event → Option (Grouping × TaskEnd)
  | endTask g e => some (g, e)
  | _ => none

/-- What may happen while the tasks of a fetch run: one of them ends, or others do something. -/
def isMeanwhile : Event → Bool
  | start .. | check | finish _ => false
  | _ => true

theorem taskEnd?_of_others {e : Event} (he : e.isOfFetch = false) : e.taskEnd? = none := by
  cases e <;> simp_all [isOfFetch, taskEnd?]

theorem exists_endTask {e : Event} (he : e.isOfFetch = true) (hm : e.isMeanwhile = true) :
    ∃ g te, e = .endTask g te := by
  cases e <;> simp_all [isOfFetch, isMeanwhile]

end Event

/-- How the tasks end, one after the other. -/
def taskEnds (events : List Event) : TaskEnds := events.filterMap Event.taskEnd?

/-- What others do, the steps of fetches left out. -/
def byOthers (events : List Event) : List Event := events.filter fun e => !e.isOfFetch

theorem byOthers_cons_of_others {e : Event} (he : e.isOfFetch = false) (events : List Event) :
    byOthers (e :: events) = e :: byOthers events :=
  List.filter_cons_of_pos (by simp [he])

theorem taskEnds_cons_of_others {e : Event} (he : e.isOfFetch = false) (events : List Event) :
    taskEnds (e :: events) = taskEnds events :=
  List.filterMap_cons_none (Event.taskEnd?_of_others he)

theorem byOthers_cons_endTask (g : Grouping) (te : TaskEnd) (events : List Event) :
    byOthers (.endTask g te :: events) = byOthers events := rfl

theorem taskEnds_cons_endTask (g : Grouping) (te : TaskEnd) (events : List Event) :
    taskEnds (.endTask g te :: events) = (g, te) :: taskEnds events := rfl

/-- The tasks end one after the other, and nothing else happens. -/
def endings (ends : TaskEnds) : List Event := ends.map fun e => .endTask e.1 e.2

theorem forall_mem_endings {ends : TaskEnds} {P : Event → Prop} :
    (∀ e ∈ endings ends, P e) ↔ ∀ e ∈ ends, P (.endTask e.1 e.2) :=
  List.forall_mem_map

theorem byOthers_endings (ends : TaskEnds) : byOthers (endings ends) = [] :=
  List.filter_eq_nil_iff.2 (forall_mem_endings.2 fun _ _ => Bool.false_ne_true)

theorem taskEnds_endings (ends : TaskEnds) : taskEnds (endings ends) = ends := by
  rw [taskEnds, endings, List.filterMap_map]
  exact List.filterMap_some

theorem Phase.IsOn.of_append {c : Cache} {r : Request} {k : UInt64} {ends more : TaskEnds}
    (h : (Phase.running r k (ends ++ more)).IsOn c) : (Phase.running r k ends).IsOn c := by
  obtain ⟨hnodup, hmissing⟩ := h
  rw [List.map_append] at hnodup hmissing
  exact ⟨(List.nodup_append.1 hnodup).1, fun g hg => hmissing g (List.mem_append_left _ hg)⟩

namespace Fetch

variable {c : Cache} {r : Request} {k : UInt64} {g : Generation} {ends ends' : TaskEnds}

theorem isComplete_perm (h : ends.Perm ends') :
    IsComplete c ⟨r, k, ends, g⟩ ↔ IsComplete c ⟨r, k, ends', g⟩ :=
  (h.map Prod.fst).congr_left (r.missing c)

theorem run_perm (hc : IsComplete c ⟨r, k, ends, g⟩) (h : ends.Perm ends') :
    run ⟨r, k, ends, g⟩ c = run ⟨r, k, ends', g⟩ c := by
  rw [run, run, Request.finish, Request.finish, r.settle_congr c hc.nodup h]

end Fetch

/-- The tasks of the second call end as those of the first do, but in another order and at other
points of what others do. -/
structure Call.Reorders (f f' : Call) : Prop where
  request : f'.request = f.request
  ticket : f'.ticket = f.ticket
  queries : f'.queries = f.queries
  running : f'.running.Perm f.running
  others : byOthers f'.running = byOthers f.running
  returning : f'.returning = f.returning

namespace Call

/-- The call up to its return. -/
def eventsAhead (f : Call) : List Event :=
  .start f.request f.ticket f.queries :: (f.running ++ .check :: f.returning)

theorem events_eq (f : Call) : f.events = f.eventsAhead ++ [.finish f.outcome] := by
  simp [events, eventsAhead]

theorem Reorders.withOutcome {f f' : Call} (h : f.Reorders f') (outcome : Request.Outcome) :
    f.Reorders { f' with outcome } :=
  ⟨h.request, h.ticket, h.queries, h.running, h.others, h.returning⟩

/-- A call during which nobody else does anything. -/
def alone (r : Request) (k : UInt64) (queries : List ViewQuery) (ends : TaskEnds)
    (outcome : Request.Outcome) : Call where
  request := r
  ticket := k
  queries := queries
  running := endings ends
  returning := []
  outcome := outcome
  pending := by
    rw [List.append_nil]
    exact forall_mem_endings.2 fun _ _ => rfl

end Call

namespace Session

/-- The session, but with the aggregator in another phase. -/
def inPhase (s : Session) (p : Phase) : Session := { s with phase := p }

variable {s t u : Session} {e : Event} {events : List Event} {r : Request} {k : UInt64}
  {ends : TaskEnds}

section Others

/-- In the midst of a fetch, what others do does not depend on how far it is. -/
theorem Step.inPhase (step : Step s e t) (he : e.isOfFetch = false) (busy : s.phase ≠ .idle)
    (p : Phase) :
    Step (s.inPhase p) e (t.inPhase p) ∧ t.phase = s.phase ∧ t.cache = s.cache := by
  cases step with
  | advance handle counter taken => exact ⟨.advance handle counter taken, rfl, rfl⟩
  | clone h => exact ⟨.clone h, rfl, rfl⟩
  | add => exact ⟨.add, rfl, rfl⟩
  | adopt known idle => exact absurd idle busy
  | start | endTask | check | finish => cases he

theorem Run.inPhase (run : Run s events t) (he : ∀ e ∈ events, e.isOfFetch = false)
    (busy : s.phase ≠ .idle) (p : Phase) :
    Run (s.inPhase p) events (t.inPhase p) ∧ t.phase = s.phase ∧ t.cache = s.cache := by
  induction run with
  | nil s => exact ⟨.nil _, rfl, rfl⟩
  | @cons s t u e events step run ih =>
    obtain ⟨he, hevents⟩ := List.forall_mem_cons.1 he
    obtain ⟨hstep, hphase, hcache⟩ := step.inPhase he busy p
    obtain ⟨hrun, hphase', hcache'⟩ := ih hevents (hphase ▸ busy)
    exact ⟨.cons hstep hrun, hphase'.trans hphase, hcache'.trans hcache⟩

theorem forall_mem_byOthers (events : List Event) : ∀ e ∈ byOthers events, e.isOfFetch = false := by
  intro e he
  simpa using (List.mem_filter.1 he).2

/-- Where others come to does not depend on which of the tasks have ended. -/
theorem exists_run_byOthers_inPhase_iff (busy : s.phase ≠ .idle) {p : Phase} (hp : p ≠ .idle)
    {q : Phase} : (∃ v, Run (s.inPhase p) (byOthers events) v ∧ u = v.inPhase q) ↔
      ∃ v, Run s (byOthers events) v ∧ u = v.inPhase q := by
  have he := forall_mem_byOthers events
  constructor
  · rintro ⟨v, run, rfl⟩
    exact ⟨_, (run.inPhase he hp s.phase).1, rfl⟩
  · rintro ⟨v, run, rfl⟩
    exact ⟨_, (run.inPhase he busy p).1, rfl⟩

end Others

section Running

/-- The task of a grouping can end if it has not ended yet. -/
theorem step_endTask_iff {g : Grouping} {te : TaskEnd} (hs : s.phase = .running r k ends)
    (hon : s.phase.IsOn s.cache) : Step s (.endTask g te) t ↔
      (Phase.running r k (ends ++ [(g, te)])).IsOn s.cache ∧
        t = s.inPhase (.running r k (ends ++ [(g, te)])) := by
  constructor
  · intro step
    have hnext := step.isOn hon
    cases step with
    | endTask e running missing once =>
      obtain ⟨rfl, rfl, rfl⟩ := Phase.running.inj (running.symm.trans hs)
      exact ⟨hnext, rfl⟩
  · rintro ⟨⟨hnodup, hmissing⟩, rfl⟩
    rw [List.map_append] at hnodup hmissing
    have hg : g ∈ [(g, te)].map Prod.fst := List.mem_singleton_self g
    refine .endTask te hs (hmissing g (List.mem_append_right _ hg)) ?_
    intro hended
    exact (List.nodup_append.1 hnodup).2.2 g hended g hg rfl

/-- While the tasks of a fetch run, their ends and what others do may be told apart. -/
theorem run_running_iff (hs : s.phase = .running r k ends) (hon : s.phase.IsOn s.cache)
    (hm : ∀ e ∈ events, e.isMeanwhile = true) : Run s events u ↔
      (Phase.running r k (ends ++ taskEnds events)).IsOn s.cache ∧
        ∃ v, Run s (byOthers events) v ∧
          u = v.inPhase (.running r k (ends ++ taskEnds events)) := by
  induction events generalizing s ends with
  | nil =>
    have hself : s.inPhase (.running r k ends) = s := by rw [← hs, inPhase]
    rw [hs] at hon
    simp [run_nil_iff, byOthers, taskEnds, hon, hself]
  | cons e events ih =>
    obtain ⟨he, hevents⟩ := List.forall_mem_cons.1 hm
    have hbusy : s.phase ≠ .idle := by simp [hs]
    rw [run_cons_iff]
    cases hfetch : e.isOfFetch with
    | false =>
      have hnext : ∀ t, Step s e t → (Run t events u ↔
          (Phase.running r k (ends ++ taskEnds events)).IsOn s.cache ∧
            ∃ v, Run t (byOthers events) v ∧
              u = v.inPhase (.running r k (ends ++ taskEnds events))) := by
        intro t step
        obtain ⟨-, hphase, hcache⟩ := step.inPhase hfetch hbusy .idle
        rw [← hcache]
        exact ih (hphase.trans hs) (by rwa [hphase, hcache]) hevents
      rw [byOthers_cons_of_others hfetch, taskEnds_cons_of_others hfetch]
      simp only [run_cons_iff]
      constructor
      · rintro ⟨t, step, run⟩
        obtain ⟨hall, v, hrun, rfl⟩ := (hnext t step).1 run
        exact ⟨hall, v, ⟨t, step, hrun⟩, rfl⟩
      · rintro ⟨hall, v, ⟨t, step, hrun⟩, rfl⟩
        exact ⟨t, step, (hnext t step).2 ⟨hall, v, hrun, rfl⟩⟩
    | true =>
      obtain ⟨g, te, rfl⟩ := Event.exists_endTask hfetch he
      have hnext : (Phase.running r k (ends ++ [(g, te)])).IsOn s.cache →
          (Run (s.inPhase (.running r k (ends ++ [(g, te)]))) events u ↔ _) :=
        fun hon' => ih rfl hon' hevents
      rw [byOthers_cons_endTask, taskEnds_cons_endTask, List.append_cons,
        ← exists_run_byOthers_inPhase_iff hbusy (p := .running r k (ends ++ [(g, te)]))
          Phase.noConfusion]
      constructor
      · rintro ⟨t, step, run⟩
        obtain ⟨hon', rfl⟩ := (step_endTask_iff hs hon).1 step
        exact (hnext hon').1 run
      · rintro ⟨hall, hothers⟩
        have hon' := hall.of_append
        exact ⟨_, (step_endTask_iff hs hon).2 ⟨hon', rfl⟩, (hnext hon').2 ⟨hall, hothers⟩⟩

/-- Between its start and the reading of the generation, a fetch takes no step but the ends of its
tasks. -/
theorem Run.isMeanwhile (run : Run s events u) (hs : s.phase = .running r k ends)
    (hu : ∀ f, u.phase ≠ .checked f) (he : ∀ e ∈ events, e.outcome? = none) :
    ∀ e ∈ events, e.isMeanwhile = true := by
  induction run generalizing r k ends with
  | nil => exact fun e he => absurd he List.not_mem_nil
  | @cons s t u e events step run ih =>
    obtain ⟨he, hevents⟩ := List.forall_mem_cons.1 he
    have hrest : t.phase = s.phase → ∀ e ∈ events, e.isMeanwhile = true :=
      fun hphase => ih (hphase.trans hs) hu hevents
    cases step with
    | advance | clone | add => exact List.forall_mem_cons.2 ⟨rfl, hrest rfl⟩
    | adopt known idle | start ticket idle asked => simp [hs] at idle
    | endTask e running missing once => exact List.forall_mem_cons.2 ⟨rfl, ih rfl hu hevents⟩
    | check running ended generation => exact absurd (run.checked rfl hevents) (hu _)
    | finish checked run => cases he

/-- Once the generation has been read, only others do something until the fetch returns. -/
theorem Run.isOfOthers (run : Run s events t) {f : Fetch} (hs : s.phase = .checked f)
    (he : ∀ e ∈ events, e.outcome? = none) : ∀ e ∈ events, e.isOfFetch = false := by
  induction run with
  | nil => exact fun e he => absurd he List.not_mem_nil
  | @cons s t u e events step run ih =>
    obtain ⟨he, hevents⟩ := List.forall_mem_cons.1 he
    have hrest := ih (step.checked hs he) hevents
    cases step with
    | advance | clone | add => exact List.forall_mem_cons.2 ⟨rfl, hrest⟩
    | adopt known idle | start ticket idle asked => simp [hs] at idle
    | endTask e running missing once | check running ended generation => simp [hs] at running
    | finish checked run => cases he

end Running

section Call

/-- The generation is read when each missing grouping has had the end of its task; what is read is
where others have brought the counter. -/
theorem run_check_iff {queries : List ViewQuery} (he : ∀ e ∈ events, e.outcome? = none) :
    (∃ u, Run s (.start r k queries :: events) u ∧ Step u .check t) ↔
      (s.phase = .idle ∧ r.queries s.cache = queries) ∧
      (∀ e ∈ events, e.isMeanwhile = true) ∧
      ∃ v g, Run (s.inPhase (.running r k [])) (byOthers events) v ∧
        v.counters.generation? v.handle = some g ∧
        Fetch.IsComplete s.cache ⟨r, k, taskEnds events, g⟩ ∧
        t = v.inPhase (.checked ⟨r, k, taskEnds events, g⟩) := by
  have hon : (s.inPhase (.running r k [])).phase.IsOn s.cache := by simp [inPhase, Phase.IsOn]
  have hcache : ∀ v, Run (s.inPhase (.running r k [])) (byOthers events) v → v.cache = s.cache :=
    fun v hothers => (hothers.inPhase (forall_mem_byOthers events) Phase.noConfusion .idle).2.2
  constructor
  · rintro ⟨u, run, check⟩
    obtain ⟨_, hstart, run⟩ := run_cons_iff.1 run
    cases hstart with
    | start _ idle asked =>
      have hm : ∀ e ∈ events, e.isMeanwhile = true := by
        refine run.isMeanwhile rfl ?_ he
        cases check with
        | check running ended generation => simp [running]
      obtain ⟨hall, v, hothers, rfl⟩ := (run_running_iff rfl hon hm).1 run
      have hcomplete := check.isOn ((hcache v hothers).symm ▸ hall)
      cases check with
      | check running ended generation =>
        obtain ⟨rfl, rfl, rfl⟩ := Phase.running.inj running
        exact ⟨⟨idle, asked⟩, hm, v, _, hothers, generation, hcache v hothers ▸ hcomplete, rfl⟩
  · rintro ⟨⟨idle, asked⟩, hm, v, g, hothers, generation, hcomplete, rfl⟩
    have hall : (Phase.running r k ([] ++ taskEnds events)).IsOn s.cache :=
      ⟨hcomplete.nodup, fun g hg => hcomplete.mem_iff.1 hg⟩
    have run := (run_running_iff (s := s.inPhase (.running r k [])) rfl hon hm).2
      ⟨hall, v, hothers, rfl⟩
    refine ⟨_, .cons (.start k idle asked) run, .check rfl ?_ generation⟩
    intro g hg
    exact hcomplete.mem_iff.2 ((hcache v hothers).symm ▸ hg)

theorem run_return_iff {f : Fetch} {outcome : Request.Outcome}
    (he : ∀ e ∈ events, e.outcome? = none) :
    (∃ u, Run (s.inPhase (.checked f)) events u ∧ Step u (.finish outcome) t) ↔
      (∀ e ∈ events, e.isOfFetch = false) ∧ f.run s.cache = (t.cache, outcome) ∧
      ∃ u, Run (s.inPhase (.checked f)) events u ∧ t = ⟨u.counters, u.handle, t.cache, .idle⟩ := by
  have hbusy : (s.inPhase (.checked f)).phase ≠ .idle := Phase.noConfusion
  constructor
  · rintro ⟨u, run, finish⟩
    have hothers := run.isOfOthers rfl he
    obtain ⟨-, hphase, hcache⟩ := run.inPhase hothers hbusy .idle
    cases finish with
    | finish checked hrun =>
      obtain rfl := Phase.checked.inj (checked.symm.trans hphase)
      rw [hcache] at hrun
      exact ⟨hothers, hrun, u, run, rfl⟩
  · rintro ⟨hothers, hrun, u, run, ht⟩
    obtain ⟨-, hphase, hcache⟩ := run.inPhase hothers hbusy .idle
    have hrun' : f.run u.cache = (t.cache, outcome) := hcache ▸ hrun
    refine ⟨u, run, ?_⟩
    rw [ht]
    exact .finish hphase hrun'

variable {f f' : Call} {t' : Session}

/-- Whatever comes before the return decides what is returned. -/
theorem Run.finish_eq {outcome outcome' : Request.Outcome}
    (run : Run s (events ++ [.finish outcome]) t)
    (run' : Run s (events ++ [.finish outcome']) t') : outcome' = outcome ∧ t' = t := by
  obtain ⟨u, hbefore, hlast⟩ := run_append_iff.1 run
  rw [run_append_iff_of_run hbefore] at run'
  obtain ⟨_, hfinish, hnil⟩ := run_cons_iff.1 hlast
  obtain ⟨_, hfinish', hnil'⟩ := run_cons_iff.1 run'
  obtain rfl := run_nil_iff.1 hnil
  obtain rfl := run_nil_iff.1 hnil'
  cases hfinish with
  | finish checked hrun =>
    cases hfinish' with
    | finish checked' hrun' =>
      obtain rfl := Phase.checked.inj (checked.symm.trans checked')
      obtain ⟨rfl, rfl⟩ := Prod.mk.inj (hrun.symm.trans hrun')
      exact ⟨rfl, rfl⟩

/-- If the tasks of a call end in another order, it may return the same, and leave the same. -/
theorem Run.of_reorders (run : Run s f.events t) (h : f.Reorders f')
    (ho : f'.outcome = f.outcome) : Run s f'.events t := by
  have hpending := List.forall_mem_append.1 f.pending
  have hpending' := List.forall_mem_append.1 f'.pending
  have hends : (taskEnds f'.running).Perm (taskEnds f.running) :=
    h.running.filterMap Event.taskEnd?
  obtain ⟨u, v, w, hstart, hcheck, hreturning, hfinish⟩ := run_events_iff.1 run
  obtain ⟨hasked, hm, u, g, hothers, hgeneration, hcomplete, rfl⟩ :=
    (run_check_iff hpending.1).1 ⟨u, hstart, hcheck⟩
  obtain ⟨hlast, hrun, w, hreturning, ht⟩ :=
    (run_return_iff hpending.2).1 ⟨w, hreturning, hfinish⟩
  have hcache : u.cache = s.cache :=
    (hothers.inPhase (forall_mem_byOthers _) Phase.noConfusion .idle).2.2
  have hm' : ∀ e ∈ f'.running, e.isMeanwhile = true := fun e he => hm e (h.running.mem_iff.1 he)
  have hcomplete' := (Fetch.isComplete_perm (k := f.ticket) (g := g) hends).2 hcomplete
  have hrun' := (Fetch.run_perm (hcache ▸ hcomplete') hends).trans hrun
  have hreturning' := (hreturning.inPhase hlast Phase.noConfusion
    (.checked ⟨f.request, f.ticket, taskEnds f'.running, g⟩)).1
  rw [← h.others] at hothers
  rw [run_events_iff, h.request, h.ticket, h.queries, h.returning, ho]
  rw [h.returning] at hpending'
  obtain ⟨u', hstart', hcheck'⟩ := (run_check_iff hpending'.1).2
    ⟨hasked, hm', u, g, hothers, hgeneration, hcomplete', rfl⟩
  obtain ⟨w', hreturning', hfinish'⟩ := (run_return_iff hpending'.2).2
    ⟨hlast, hrun', _, hreturning', ht⟩
  exact ⟨u', _, w', hstart', hcheck', hreturning', hfinish'⟩

theorem Run.iff_of_reorders (run : Run s f.events t) (h : f.Reorders f') :
    Run s f'.events t' ↔ f'.outcome = f.outcome ∧ t' = t := by
  constructor
  · intro run'
    have hsame := run.of_reorders (h.withOutcome f.outcome) rfl
    rw [Call.events_eq] at run' hsame
    exact hsame.finish_eq run'
  · rintro ⟨ho, rfl⟩
    exact run.of_reorders h ho

/-- When the aggregator is idle, a fetch can be made, and its tasks can end as they like. -/
theorem Run.exists_alone (reached : Run .fresh events s) (idle : s.phase = .idle) (r : Request)
    (k : UInt64) (he : (ends.map Prod.fst).Perm (r.missing s.cache)) :
    ∃ outcome t, Run s (Call.alone r k (r.queries s.cache) ends outcome).events t := by
  obtain ⟨g, hg⟩ := reached.exists_generation
  have hcomplete : Fetch.IsComplete s.cache ⟨r, k, taskEnds (endings ends), g⟩ := by
    rwa [Fetch.IsComplete, Fetch.executed, taskEnds_endings]
  have hothers : Run (s.inPhase (.running r k [])) (byOthers (endings ends))
      (s.inPhase (.running r k [])) := by
    rw [byOthers_endings]
    exact .nil _
  obtain ⟨u, hstart, hcheck⟩ := (run_check_iff (forall_mem_endings.2 fun _ _ => rfl)).2
    ⟨⟨idle, rfl⟩, forall_mem_endings.2 fun _ _ => rfl, _, g, hothers, hg, hcomplete, rfl⟩
  exact ⟨_, _, run_events_iff.2 ⟨u, _, _, hstart, hcheck, .nil _, .finish rfl rfl⟩⟩

theorem Call.reorders_alone {queries : List ViewQuery} {outcome outcome' : Request.Outcome}
    {ends' : TaskEnds} (h : ends'.Perm ends) :
    (Call.alone r k queries ends outcome).Reorders (.alone r k queries ends' outcome') := by
  refine ⟨rfl, rfl, rfl, h.map _, ?_, rfl⟩
  rw [Call.alone, Call.alone, byOthers_endings, byOthers_endings]

/-- Whatever the tasks of a fetch bring, it returns the same and leaves the same in whatever order
they end. So it does if others do something meanwhile, wherever among their doings the tasks end. -/
theorem outcome_eq_of_reordered {trace : List Event} (reached : Run .fresh trace s)
    (idle : s.phase = .idle) (r : Request) (k : UInt64) (result : Grouping → TaskEnd) :
    (∃ outcome t, ∀ order : List Grouping, order.Perm (r.missing s.cache) →
      Run s (Call.alone r k (r.queries s.cache) (order.map fun g => (g, result g)) outcome).events
        t) ∧
    ∀ (f f' : Call) t t', Run s f.events t → f.Reorders f' →
      (Run s f'.events t' ↔ f'.outcome = f.outcome ∧ t' = t) := by
  constructor
  · have he : ((r.missing s.cache).map fun g => (g, result g)).map Prod.fst =
        r.missing s.cache := by
      simp [Function.comp_def]
    obtain ⟨outcome, t, run⟩ := reached.exists_alone idle r k (List.Perm.of_eq he)
    refine ⟨outcome, t, fun order horder => ?_⟩
    exact run.of_reorders (Call.reorders_alone (horder.map _)) rfl
  · intro f f' t t' run h
    exact run.iff_of_reorders h

end Call

section Sales

/-- One ticket has been taken. -/
def ticketed : Session := ⟨⟨[⟨1⟩], [0]⟩, 0, .empty, .idle⟩

def collapsedRequest : Request := ⟨.sales false, Pivot.salesCollapsed, 1⟩

def regions : Grouping := ⟨["Region"], ["Year"]⟩

def failsInFull (g : Grouping) : TaskEnd :=
  if g = collapsedRequest.pivot.full then .error (.failed "timeout") else .rows Pivot.salesRows

/-- Someone gets a handle while the last task still runs. -/
def failingLast : Call where
  request := collapsedRequest
  ticket := 1
  queries := collapsedRequest.queries .empty
  running := [.endTask regions (failsInFull regions), .clone 0] ++
    [.endTask collapsedRequest.pivot.full (failsInFull collapsedRequest.pivot.full)]
  returning := []
  outcome := .ready (collapsedRequest.settle .empty
    [(regions, failsInFull regions),
      (collapsedRequest.pivot.full, failsInFull collapsedRequest.pivot.full)]).2
  pending := by simp [Event.outcome?]

def failingFirst : Call :=
  { failingLast with
    running := [.endTask collapsedRequest.pivot.full (failsInFull collapsedRequest.pivot.full)] ++
      [.endTask regions (failsInFull regions), .clone 0]
    pending := by simp [failingLast, Event.outcome?] }

/-- The failure comes first or last, and what was fetched for the regions is kept. -/
theorem outcome_eq_of_failing_first :
    (∃ outcome t, ∀ order : List Grouping, order.Perm [regions, collapsedRequest.pivot.full] →
      Run ticketed (Call.alone collapsedRequest 1 (collapsedRequest.queries .empty)
        (order.map fun g => (g, failsInFull g)) outcome).events t) ∧
    ∃ t, Run ticketed failingLast.events t ∧ Run ticketed failingFirst.events t ∧
      t.cache.get? regions = some Pivot.salesRows := by
  have reached : Run .fresh [.advance 0 0 1] ticketed := .cons (.advance rfl rfl rfl) (.nil _)
  have hmissing : collapsedRequest.missing ticketed.cache =
    [regions, collapsedRequest.pivot.full] := by decide
  obtain ⟨horders, hreorders⟩ :=
    outcome_eq_of_reordered reached rfl collapsedRequest 1 failsInFull
  rw [hmissing] at horders
  have run : Run ticketed failingLast.events _ :=
    .cons (.start 1 rfl rfl) <| .cons (.endTask _ rfl (by decide) (by decide)) <|
      .cons (.clone 0) <| .cons (.endTask _ rfl (by decide) (by decide)) <|
      .cons (.check rfl (by decide) rfl) <| .cons (.finish rfl rfl) <| .nil _
  have h : failingLast.Reorders failingFirst :=
    ⟨rfl, rfl, rfl, List.perm_append_comm, rfl, rfl⟩
  exact ⟨horders, _, run, (hreorders _ _ _ _ run h).2 ⟨rfl, rfl⟩, by decide⟩

end Sales

end Session

end ChartQuery
