import Pathwise.Proofs.Observer

/-!
# Runs that share a sink

Procedures are analysed at the same time, and their runs deliver to one sink. All that a run reads
of the sink is which rules it does not want, and no delivery changes that: each run finds what it
would find alone. A turn moves a diagnostic from what a run has still to deliver to what the sink
has, so that the two together stay the same up to order, and the sorted diagnostics of the sink do
not depend on the order of the turns.
-/

namespace Pathwise

namespace Analysis

variable (a : Analysis) {sink sink' : Sink}

/-- What an analysis finds depends on the sink through the rules only that it does not want. -/
theorem exploration_congr (h : sink.disabled = sink'.disabled) (p : Procedure)
    (polls : Option Polls) :
    (a.analyse p sink polls).exploration = (a.analyse p sink' polls).exploration := by
  have hchecks : a.registry.enabled a.settings sink = a.registry.enabled a.settings sink' := by
    simp only [Registry.enabled, Sink.isEnabled, h]
  unfold analyse
  dsimp only
  rw [hchecks]
  split <;> rfl

/-- An analysis delivers its diagnostics and does nothing else to the sink. -/
theorem sink_analyse (p : Procedure) (sink : Sink) (polls : Option Polls) :
    (a.analyse p sink polls).sink =
      sink.emitAll (a.analyse p sink polls).exploration.diagnostics := by
  unfold analyse
  dsimp only
  split <;> rfl

end Analysis

/-! ## Workers and pools -/

/-- A run that is to be made. -/
structure Job where
  /-- The procedure. -/
  procedure : Procedure
  /-- What the run is told when it polls. -/
  polls : Option Polls

/-- What a job finds if nothing else is going on. -/
def Job.alone (a : Analysis) (sink : Sink) (job : Job) : Exploration :=
  (a.analyse job.procedure sink job.polls).exploration

/-- One of the runs that share a sink. -/
inductive Worker where
  /-- It has not begun. -/
  | waiting (job : Job)
  /-- It is through with the procedure and has still to deliver some of what it found. -/
  | delivering (found : Exploration) (rest : List Diagnostic)

namespace Worker

/-- A worker begins by exploring its procedure, with the sink as it finds it, and then delivers one
diagnostic at each turn. -/
def turn (a : Analysis) (sink : Sink) : Worker → Worker × Sink
  | waiting job => (delivering (job.alone a sink) (job.alone a sink).diagnostics, sink)
  | delivering found [] => (delivering found [], sink)
  | delivering found (d :: rest) => (delivering found rest, sink.emit d)

/-- What a worker has found, once it is through with everything. -/
def result? : Worker → Option Exploration
  | delivering found [] => some found
  | _ => none

end Worker

/-- Workers that share a sink. -/
structure Pool where
  /-- The workers, in the order of the jobs. -/
  workers : List Worker
  /-- The sink. -/
  sink : Sink

namespace Pool

/-- Nobody has begun. -/
def start (jobs : List Job) (sink : Sink) : Pool := ⟨jobs.map .waiting, sink⟩

/-- The worker at a place takes a turn. -/
def turn (a : Analysis) (pool : Pool) (i : Nat) : Pool :=
  match pool.workers[i]? with
  | some w => ⟨pool.workers.set i (w.turn a pool.sink).1, (w.turn a pool.sink).2⟩
  | none => pool

/-- The workers take turns in a given order. -/
def run (a : Analysis) (pool : Pool) (turns : List Nat) : Pool := turns.foldl (turn a) pool

/-- Whether all workers are through. -/
def finished (pool : Pool) : Bool := pool.workers.all (·.result?.isSome)

/-- What the workers that are through have found, in the order of the jobs. -/
def explorations (pool : Pool) : List Exploration := pool.workers.filterMap Worker.result?

end Pool

/-! ## What a turn keeps -/

namespace Worker

variable {a : Analysis} {sink now : Sink} {w : Worker}

/-- What a worker is going to find, or has found. -/
def outcome (a : Analysis) (sink : Sink) : Worker → Exploration
  | waiting job => job.alone a sink
  | delivering found _ => found

/-- What a worker has still to deliver. -/
def pending (a : Analysis) (sink : Sink) : Worker → List Diagnostic
  | waiting job => (job.alone a sink).diagnostics
  | delivering _ rest => rest

/-- The number of turns after which a worker is through. -/
def remaining (a : Analysis) (sink : Sink) : Worker → Nat
  | waiting job => (job.alone a sink).diagnostics.length + 1
  | delivering _ rest => rest.length

/-- What a turn does to a worker and to the sink, if the sink still does not want the same rules. -/
structure Proceeds (a : Analysis) (sink now : Sink) (w w' : Worker) (after : Sink) : Prop where
  /-- What the worker finds stays the same. -/
  outcome : w'.outcome a sink = w.outcome a sink
  /-- The sink wants the same rules. -/
  disabled : after.disabled = now.disabled
  /-- What the worker no longer has to deliver is with the sink. -/
  delivered : after.delivered ++ w'.pending a sink = now.delivered ++ w.pending a sink
  /-- One turn less remains. -/
  remaining : w'.remaining a sink = w.remaining a sink - 1

theorem turn_proceeds (h : now.disabled = sink.disabled) (w : Worker) :
    Proceeds a sink now w (w.turn a now).1 (w.turn a now).2 := by
  cases w with
  | waiting job =>
    have halone : job.alone a now = job.alone a sink := a.exploration_congr h _ _
    constructor <;> simp [turn, Worker.outcome, pending, Worker.remaining, halone]
  | delivering found rest =>
    cases rest with
    | nil => constructor <;> rfl
    | cons d rest =>
      constructor <;> simp [turn, Worker.outcome, pending, Worker.remaining, Sink.emit]

theorem isSome_result? (a : Analysis) (sink : Sink) (w : Worker) :
    w.result?.isSome = true ↔ w.remaining a sink = 0 := by
  cases w with
  | waiting job => simp [result?, remaining]
  | delivering found rest => cases rest <;> simp [result?, remaining]

/-- A worker that is through has found what it was going to find and has delivered it all. -/
theorem of_result? (h : w.result?.isSome = true) :
    w.result? = some (w.outcome a sink) ∧ w.pending a sink = [] := by
  cases w with
  | waiting job => simp [result?] at h
  | delivering found rest =>
    cases rest with
    | nil => exact ⟨rfl, rfl⟩
    | cons d rest => simp [result?] at h

end Worker

namespace Pool

variable {a : Analysis} {sink : Sink} {jobs : List Job} {turns : List Nat} {pool : Pool}

/-- A turn changes nothing, or one worker proceeds and the others stay as they are. -/
theorem turn_cases (a : Analysis) (pool : Pool) (i : Nat) :
    (pool.workers[i]? = none ∧ pool.turn a i = pool) ∨
      ∃ before w after, pool.workers = before ++ w :: after ∧ before.length = i ∧
        pool.turn a i =
          ⟨before ++ (w.turn a pool.sink).1 :: after, (w.turn a pool.sink).2⟩ := by
  unfold turn
  split
  · next w hw =>
    obtain ⟨hi, rfl⟩ := List.getElem?_eq_some_iff.1 hw
    obtain ⟨before, after, hworkers, hlength, hset⟩ :
        ∃ before after, pool.workers = before ++ pool.workers[i] :: after ∧ before.length = i ∧
          pool.workers.set i (pool.workers[i].turn a pool.sink).1 =
            before ++ (pool.workers[i].turn a pool.sink).1 :: after := List.exists_of_set hi
    exact .inr ⟨before, pool.workers[i], after, hworkers, hlength, by rw [hset]⟩
  · next hw => exact .inl ⟨hw, rfl⟩

/-- How far the workers have come after some turns. -/
structure After (a : Analysis) (jobs : List Job) (sink : Sink) (turns : List Nat) (pool : Pool) :
    Prop where
  /-- Each worker finds what it finds alone. -/
  outcomes : pool.workers.map (Worker.outcome a sink) = jobs.map (Job.alone a sink)
  /-- The sink wants the same rules. -/
  disabled : pool.sink.disabled = sink.disabled
  /-- What the sink got and what is still to be delivered is all that is found. -/
  delivered : (pool.sink.delivered ++ pool.workers.flatMap (Worker.pending a sink)).Perm
    (sink.delivered ++ (jobs.map (Job.alone a sink)).flatMap (·.diagnostics))
  /-- Every worker has had its turns. -/
  remaining : ∀ i, pool.workers[i]?.map (Worker.remaining a sink) =
    jobs[i]?.map fun job => (job.alone a sink).diagnostics.length + 1 - turns.count i

theorem after_start (a : Analysis) (jobs : List Job) (sink : Sink) :
    After a jobs sink [] (start jobs sink) where
  outcomes := by
    rw [start, List.map_map]
    rfl
  disabled := rfl
  delivered := by
    rw [start, List.flatMap_map, List.flatMap_map]
    exact .refl _
  remaining i := by
    rw [start, List.getElem?_map, Option.map_map]
    rfl

/-- A turn at a place without a worker counts for no job. -/
theorem After.idle (h : After a jobs sink turns pool) {i : Nat} (hnone : pool.workers[i]? = none) :
    After a jobs sink (turns ++ [i]) pool := by
  refine ⟨h.outcomes, h.disabled, h.delivered, fun j => ?_⟩
  rw [h.remaining j]
  by_cases hj : j = i
  · have hjob : jobs[j]? = none := by simpa [hj, hnone] using (h.remaining j).symm
    rw [hjob]
    rfl
  · simp [List.count_append, Ne.symm hj]

/-- What a worker has to deliver may be put next to what the sink has. -/
theorem append_flatMap_perm {sent : List Diagnostic} {before after : List Worker} {w : Worker} :
    (sent ++ (before ++ w :: after).flatMap (Worker.pending a sink)).Perm
      (sent ++ w.pending a sink ++ (before ++ after).flatMap (Worker.pending a sink)) := by
  rw [List.flatMap_append, List.flatMap_append, List.flatMap_cons, List.append_assoc]
  exact (List.perm_append_comm_assoc _ _ _).append_left sent

theorem After.turn (h : After a jobs sink turns pool) (i : Nat) :
    After a jobs sink (turns ++ [i]) (pool.turn a i) := by
  rcases turn_cases a pool i with ⟨hnone, hsame⟩ | ⟨before, w, after, hworkers, hlength, hturn⟩
  · rw [hsame]
    exact h.idle hnone
  · have hproceeds := Worker.turn_proceeds (a := a) h.disabled w
    obtain ⟨houtcomes, hdisabled, hdelivered, hremaining⟩ := h
    rw [hworkers] at houtcomes hdelivered hremaining
    rw [hturn]
    refine ⟨?_, hproceeds.disabled.trans hdisabled, ?_, fun j => ?_⟩
    · rw [← houtcomes, List.map_append, List.map_append, List.map_cons, List.map_cons,
        hproceeds.outcome]
    · refine append_flatMap_perm.trans (List.Perm.trans ?_ hdelivered)
      rw [hproceeds.delivered]
      exact append_flatMap_perm.symm
    · have hbefore := hremaining j
      by_cases hj : j = i
      · subst hj hlength
        have hhere : ∀ w : Worker, (before ++ w :: after)[before.length]? = some w := by simp
        rw [hhere, Option.map_some] at hbefore ⊢
        obtain ⟨job, hjob, hcount⟩ := Option.map_eq_some_iff.1 hbefore.symm
        rw [hjob, hproceeds.remaining, ← hcount]
        simp [List.count_append, Nat.sub_sub]
      · have hother : (before ++ (w.turn a pool.sink).1 :: after)[j]? =
            (before ++ w :: after)[j]? := by
          grind
        rw [hother, hbefore]
        simp [List.count_append, Ne.symm hj]

theorem After.run (h : After a jobs sink turns pool) (more : List Nat) :
    After a jobs sink (turns ++ more) (pool.run a more) := by
  induction more generalizing turns pool with
  | nil => simpa [Pool.run] using h
  | cons i more ih =>
    have hnext := ih (h.turn i)
    rwa [List.append_assoc] at hnext

/-- All workers are through exactly if each has had a turn to begin with and one for every
diagnostic. -/
theorem After.finished_iff (h : After a jobs sink turns pool) : pool.finished = true ↔
    ∀ i job, jobs[i]? = some job → (job.alone a sink).diagnostics.length < turns.count i := by
  rw [finished, List.all_eq_true]
  constructor
  · intro hall i job hjob
    have hremaining := h.remaining i
    rw [hjob, Option.map_some] at hremaining
    obtain ⟨w, hw, hcount⟩ := Option.map_eq_some_iff.1 hremaining
    have hdone := (w.isSome_result? a sink).1 (hall w (List.mem_of_getElem? hw))
    omega
  · intro hcount w hw
    obtain ⟨i, hi⟩ := List.getElem?_of_mem hw
    have hremaining := h.remaining i
    rw [hi, Option.map_some] at hremaining
    obtain ⟨job, hjob, hleft⟩ := Option.map_eq_some_iff.1 hremaining.symm
    have henough := hcount i job hjob
    rw [w.isSome_result? a sink]
    omega

/-- When all workers are through, they have found what each finds alone, and the sink has it all. -/
theorem After.of_finished (h : After a jobs sink turns pool) (hfinished : pool.finished = true) :
    pool.explorations = jobs.map (Job.alone a sink) ∧
      pool.sink.delivered.Perm
        (sink.delivered ++ (jobs.map (Job.alone a sink)).flatMap (·.diagnostics)) := by
  have hresult : ∀ w ∈ pool.workers, w.result? = some (w.outcome a sink) ∧
      w.pending a sink = [] :=
    fun w hw => Worker.of_result? (List.all_eq_true.1 hfinished w hw)
  constructor
  · rw [← h.outcomes, explorations, ← List.filterMap_eq_map]
    exact List.filterMap_congr fun w hw => (hresult w hw).1
  · have hnone : pool.workers.flatMap (Worker.pending a sink) = [] :=
      List.flatMap_eq_nil_iff.2 fun w hw => (hresult w hw).2
    simpa [hnone] using h.delivered

end Pool

/-- Analysing procedures one after the other finds what each run finds alone, and delivers it. -/
theorem Analysis.analyseAll_eq (a : Analysis) (sink : Sink) (polls : Option Polls)
    (procedures : List Procedure) :
    let alone := procedures.map fun p => Job.alone a sink ⟨p, polls⟩
    (a.analyseAll sink polls procedures).1 = alone ∧
      (a.analyseAll sink polls procedures).2.2 = sink.emitAll (alone.flatMap (·.diagnostics)) := by
  induction procedures generalizing sink with
  | nil => exact ⟨rfl, rfl⟩
  | cons p rest ih =>
    have hsink := a.sink_analyse p sink polls
    have hdisabled : (a.analyse p sink polls).sink.disabled = sink.disabled := by
      rw [hsink, Sink.emitAll_eq]
    have halone : ∀ q, Job.alone a (a.analyse p sink polls).sink ⟨q, polls⟩ =
        Job.alone a sink ⟨q, polls⟩ := fun q => a.exploration_congr hdisabled q polls
    obtain ⟨hfirst, hlast⟩ := ih (a.analyse p sink polls).sink
    simp only [halone] at hfirst hlast
    refine ⟨congrArg ((a.analyse p sink polls).exploration :: ·) hfirst, ?_⟩
    calc (a.analyseAll sink polls (p :: rest)).2.2
        = (a.analyse p sink polls).sink.emitAll
            ((rest.map fun q => Job.alone a sink ⟨q, polls⟩).flatMap (·.diagnostics)) := hlast
      _ = _ := by
        rw [hsink]
        exact (List.foldl_append ..).symm

namespace Pool

/-- Runs that share a sink finish if each gets enough turns, in whatever order, and what they find
does not depend on the order: it is, in the order of the jobs, what each finds alone. The sink then
has what it had before and all that was found, nothing lost and nothing twice, and puts it in the
same order always. The same is found and delivered if the procedures are analysed one after the
other. -/
theorem sharing_independent_of_turns (a : Analysis) (jobs : List Job) (sink : Sink)
    (turns : List Nat) :
    let alone := jobs.map (Job.alone a sink)
    let all := sink.delivered ++ alone.flatMap (·.diagnostics)
    let pool := (start jobs sink).run a turns
    (pool.finished = true ↔
      ∀ i job, jobs[i]? = some job → (job.alone a sink).diagnostics.length < turns.count i) ∧
    (pool.finished = true →
      pool.explorations = alone ∧
      pool.sink.diagnostics = Diagnostic.sorted all ∧
      pool.sink.diagnostics.Perm all ∧
      pool.sink.diagnostics.Pairwise (fun d e => (compare d e).isLE = true) ∧
      ∀ procedures polls, jobs = procedures.map (⟨·, polls⟩) →
        pool.explorations = (a.analyseAll sink polls procedures).1 ∧
        pool.sink.diagnostics = (a.analyseAll sink polls procedures).2.2.diagnostics) := by
  intro alone all pool
  have hafter : After a jobs sink turns pool := (after_start a jobs sink).run turns
  refine ⟨hafter.finished_iff, fun hfinished => ?_⟩
  obtain ⟨hexplorations, hdelivered⟩ := hafter.of_finished hfinished
  have hsorted : pool.sink.diagnostics = Diagnostic.sorted all :=
    Diagnostic.sorted_eq_of_perm hdelivered
  refine ⟨hexplorations, hsorted, ?_, Diagnostic.sorted_le _, ?_⟩
  · rw [hsorted]
    exact Diagnostic.sorted_perm all
  · rintro procedures polls rfl
    obtain ⟨hfirst, hsink⟩ := a.analyseAll_eq sink polls procedures
    have halone : alone = procedures.map fun p => Job.alone a sink ⟨p, polls⟩ :=
      List.map_map
    rw [hexplorations, hsorted, hfirst, hsink, Sink.emitAll_eq, ← halone]
    exact ⟨rfl, rfl⟩

open SaltedKey in
/-- Two runs over the same procedure find the same, and deliver it by turns. The sink has it twice,
as it has after one run behind the other. -/
theorem sharing_independent_of_turns_saltedKey :
    let a : Analysis := ⟨sample.semantics, .standard, sample.settings⟩
    let jobs : List Job := [⟨sample.procedure, none⟩, ⟨sample.procedure, none⟩]
    let pool := (start jobs (.withDisabled [])).run a [0, 1, 1, 0, 0, 1]
    pool.finished = true ∧
      pool.explorations = [watched.exploration, watched.exploration] ∧
      pool.sink.diagnostics.length = 4 ∧
      pool.sink.diagnostics = (a.analyseAll (.withDisabled []) none
        [sample.procedure, sample.procedure]).2.2.diagnostics := by
  intro a jobs pool
  have hlength : watched.exploration.diagnostics.length = 2 := by
    simpa using congrArg List.length watched_eq.2.2
  have halone : Job.alone a (.withDisabled []) ⟨sample.procedure, none⟩ = watched.exploration := by
    unfold watched
    rfl
  have henough : ∀ i job, jobs[i]? = some job →
      (job.alone a (.withDisabled [])).diagnostics.length < [0, 1, 1, 0, 0, 1].count i := by
    intro i job hjob
    obtain ⟨hi, -⟩ := List.getElem?_eq_some_iff.1 hjob
    have hsame : job = ⟨sample.procedure, none⟩ := by
      simpa [jobs] using List.mem_of_getElem? hjob
    rw [hsame, halone, hlength]
    obtain rfl | rfl : i = 0 ∨ i = 1 := by
      simp only [jobs, List.length_cons, List.length_nil] at hi
      omega
    · decide
    · decide
  obtain ⟨hiff, hdone⟩ := sharing_independent_of_turns a jobs (.withDisabled []) [0, 1, 1, 0, 0, 1]
  have hfinished := hiff.2 henough
  obtain ⟨hexplorations, -, hperm, -, hsequential⟩ := hdone hfinished
  have hfound : jobs.map (Job.alone a (.withDisabled [])) =
      [watched.exploration, watched.exploration] := by
    simp only [jobs, List.map_cons, List.map_nil, halone]
  rw [hfound] at hexplorations hperm
  refine ⟨hfinished, hexplorations, ?_, ?_⟩
  · rw [hperm.length_eq]
    simp [Sink.withDisabled, hlength]
  · exact (hsequential [sample.procedure, sample.procedure] none rfl).2

end Pool

end Pathwise
