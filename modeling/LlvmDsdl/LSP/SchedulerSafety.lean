import LlvmDsdl.LSP.RequestScheduler
import Mathlib.Data.List.GetD

/-!
Contract: what the request scheduler promises of every interleaving.

Owns: the joint invariant of map, queue and worker, its preservation by every
step, the fate of a request cancelled before its task starts, and the drain
after shutdown.
-/

namespace LlvmDsdl.LSP

open Library.Transition

variable {Task Completion Json : Type} [Inhabited Json]

namespace Worker

/-- The request of the current turn. -/
def held : Worker Task Completion Json → Option (WorkItem Task Completion)
  | .waiting => none
  | .popped item => some item
  | .running item => some item
  | .finished item _ => some item
  | .released item _ => some item
  | .exited => none

/-- The request off the queue whose key the scheduler still holds. -/
def inFlight : Worker Task Completion Json → Option (WorkItem Task Completion)
  | .waiting => none
  | .popped item => some item
  | .running item => some item
  | .finished item _ => some item
  | .released _ _ => none
  | .exited => none

/-- The request whose flag has been read. -/
def inspected : Worker Task Completion Json → Option (WorkItem Task Completion)
  | .waiting => none
  | .popped _ => none
  | .running item => some item
  | .finished item _ => some item
  | .released item _ => some item
  | .exited => none

theorem inspected_sublist_held (worker : Worker Task Completion Json) :
    worker.inspected.toList.Sublist worker.held.toList := by
  cases worker with
  | popped item => exact List.nil_sublist _
  | _ => exact List.Sublist.refl _

end Worker

namespace Scheduler

def trackedKeys (scheduler : Scheduler Task Completion Json) : List String :=
  scheduler.requestStates.map Prod.fst

/-- The requests queued or in flight, oldest first. -/
def outstanding (scheduler : Scheduler Task Completion Json) : List (WorkItem Task Completion) :=
  scheduler.worker.inFlight.toList ++ scheduler.queue

def completedItems (scheduler : Scheduler Task Completion Json) :
    List (WorkItem Task Completion) :=
  scheduler.completed.map CompletedRequest.item

/-- Shut down, with nothing queued and no turn under way. -/
def Drained (scheduler : Scheduler Task Completion Json) : Prop :=
  scheduler.stopping = true ∧ scheduler.queue = [] ∧ scheduler.worker.held = none

/-! ### Invariant -/

/-- The map, the queue and the worker account for every accepted request, in order. -/
structure Coherent (maxPendingRequests : ℕ) (scheduler : Scheduler Task Completion Json) :
    Prop where
  history : scheduler.accepted =
    scheduler.completedItems ++ (scheduler.worker.held.toList ++ scheduler.queue)
  addresses : scheduler.accepted.map WorkItem.cancellation = List.range scheduler.flags.length
  tracked : scheduler.requestStates =
    scheduler.outstanding.map fun item => (item.requestKey, item.cancellation)
  distinct : scheduler.trackedKeys.Nodup
  bounded : scheduler.requestStates.length ≤ maxPendingRequests
  begun : scheduler.started.Sublist
    (scheduler.completedItems ++ scheduler.worker.inspected.toList)
  exited : scheduler.worker = .exited → scheduler.queue = [] ∧ scheduler.stopping = true

variable {maxPendingRequests : ℕ}

theorem initial_coherent :
    Coherent maxPendingRequests ({} : Scheduler Task Completion Json) where
  history := rfl
  addresses := rfl
  tracked := rfl
  distinct := List.nodup_nil
  bounded := Nat.zero_le _
  begun := List.Sublist.refl _
  exited := nofun

section Step

variable {scheduler next : Scheduler Task Completion Json}

/-! ### Callers -/

theorem enqueue_coherent (coherent : Coherent maxPendingRequests scheduler)
    (requestKey method : String) (task : Task) (completion : Option Completion) :
    Coherent maxPendingRequests
      (scheduler.enqueue maxPendingRequests requestKey method task completion).2 := by
  unfold enqueue
  by_cases stopping : scheduler.stopping = true
  · rw [if_pos stopping]
    exact coherent
  by_cases known : scheduler.tracks requestKey = true
  · rw [if_neg stopping, if_pos known]
    exact coherent
  by_cases full : maxPendingRequests ≤ scheduler.requestStates.length
  · rw [if_neg stopping, if_neg known, if_pos full]
    exact coherent
  rw [if_neg stopping, if_neg known, if_neg full]
  have fresh : requestKey ∉ scheduler.trackedKeys := by
    intro member
    have ⟨entry, inside, same⟩ := List.mem_map.mp member
    apply known
    exact List.any_eq_true.mpr ⟨entry, inside, beq_iff_eq.mpr same⟩
  constructor
  · show scheduler.accepted ++ [_] = _
    rw [coherent.history]
    simp only [completedItems, List.append_assoc]
  · show (scheduler.accepted ++ [_]).map _ = List.range (scheduler.flags ++ [false]).length
    rw [List.map_append, coherent.addresses, List.length_append, List.length_singleton,
      List.range_succ]
    rfl
  · show scheduler.requestStates ++ [_] = _
    rw [coherent.tracked]
    simp only [outstanding, List.map_append, List.map_cons, List.map_nil, List.append_assoc]
  · show (List.map Prod.fst (scheduler.requestStates ++ [_])).Nodup
    rw [List.map_append]
    apply List.nodup_append.mpr
    refine ⟨coherent.distinct, List.pairwise_singleton _ _, ?_⟩
    intro key member other new same
    rw [List.map_singleton, List.mem_singleton] at new
    rw [same, new] at member
    exact fresh member
  · show (scheduler.requestStates ++ [_]).length ≤ maxPendingRequests
    rw [List.length_append, List.length_singleton]
    omega
  · exact coherent.begun
  · intro exited
    exact absurd (coherent.exited exited).2 stopping

theorem coherent_flags (coherent : Coherent maxPendingRequests scheduler) {flags : List Bool}
    (sameLength : flags.length = scheduler.flags.length) {stopping : Bool}
    (stays : scheduler.stopping = true → stopping = true) :
    Coherent maxPendingRequests { scheduler with flags := flags, stopping := stopping } where
  history := coherent.history
  addresses := by
    rw [sameLength]
    exact coherent.addresses
  tracked := coherent.tracked
  distinct := coherent.distinct
  bounded := coherent.bounded
  begun := coherent.begun
  exited := by
    intro exited
    exact ⟨(coherent.exited exited).1, stays (coherent.exited exited).2⟩

theorem cancel_coherent (coherent : Coherent maxPendingRequests scheduler)
    (requestKey : String) : Coherent maxPendingRequests (scheduler.cancel requestKey).2 := by
  unfold cancel
  cases found : scheduler.requestStates.find? (fun entry => entry.1 == requestKey) with
  | none => exact coherent
  | some entry => exact coherent_flags coherent List.length_set id

theorem length_foldl_set (entries : List (String × ℕ)) (flags : List Bool) :
    (entries.foldl (fun flags entry => flags.set entry.2 true) flags).length = flags.length := by
  induction entries generalizing flags with
  | nil => rfl
  | cons entry rest ih =>
      rw [List.foldl_cons, ih, List.length_set]

theorem shutdown_coherent (coherent : Coherent maxPendingRequests scheduler) :
    Coherent maxPendingRequests scheduler.shutdown := by
  unfold shutdown
  by_cases stopping : scheduler.stopping = true
  · rw [if_pos stopping]
    exact coherent
  · rw [if_neg stopping]
    exact coherent_flags coherent (length_foldl_set _ _) fun _ => rfl

/-! ### The worker -/

theorem take_coherent (coherent : Coherent maxPendingRequests scheduler)
    (taken : scheduler.take = some next) : Coherent maxPendingRequests next := by
  unfold take at taken
  cases worker : scheduler.worker with
  | waiting =>
      cases queue : scheduler.queue with
      | nil =>
          rw [worker, queue] at taken
          rw [← Option.some.inj taken]
          by_cases stopping : scheduler.stopping = true
          · rw [if_pos stopping]
            constructor
            · rw [coherent.history, worker, queue]
              rfl
            · exact coherent.addresses
            · rw [coherent.tracked, outstanding, worker, queue]
              rfl
            · exact coherent.distinct
            · exact coherent.bounded
            · have begun := coherent.begun
              rw [worker] at begun
              exact begun
            · intro _
              exact ⟨rfl, stopping⟩
          · rw [if_neg stopping]
            exact coherent
      | cons item rest =>
          rw [worker, queue] at taken
          rw [← Option.some.inj taken]
          constructor
          · rw [coherent.history, worker, queue]
            rfl
          · exact coherent.addresses
          · rw [coherent.tracked, outstanding, worker, queue]
            rfl
          · exact coherent.distinct
          · exact coherent.bounded
          · have begun := coherent.begun
            rw [worker] at begun
            exact begun
          · nofun
  | _ =>
      rw [worker] at taken
      cases taken

/-- Moving on within a turn keeps the invariant when the request stays in flight. -/
theorem coherent_turn (coherent : Coherent maxPendingRequests scheduler)
    {worker : Worker Task Completion Json} {started : List (WorkItem Task Completion)}
    {item : WorkItem Task Completion} (held : scheduler.worker.held = some item)
    (inFlight : scheduler.worker.inFlight = some item) (holds : worker.held = some item)
    (keeps : worker.inFlight = some item)
    (begun : started.Sublist (scheduler.completedItems ++ worker.inspected.toList)) :
    Coherent maxPendingRequests { scheduler with worker := worker, started := started } := by
  constructor
  · show scheduler.accepted = scheduler.completedItems ++ (worker.held.toList ++ scheduler.queue)
    rw [coherent.history, held, holds]
  · exact coherent.addresses
  · show scheduler.requestStates = (worker.inFlight.toList ++ scheduler.queue).map _
    rw [coherent.tracked, outstanding, inFlight, keeps]
  · exact coherent.distinct
  · exact coherent.bounded
  · exact begun
  · intro exited
    have exited : worker = .exited := exited
    rw [exited] at holds
    cases holds

theorem inspect_coherent (coherent : Coherent maxPendingRequests scheduler)
    (inspected : scheduler.inspect = some next) : Coherent maxPendingRequests next := by
  unfold inspect at inspected
  cases worker : scheduler.worker with
  | popped item =>
      rw [worker] at inspected
      have begun := coherent.begun
      rw [worker] at begun
      have begun : scheduler.started.Sublist scheduler.completedItems := by
        rw [← List.append_nil scheduler.completedItems]
        exact begun
      have held : scheduler.worker.held = some item := by rw [worker]; rfl
      have inFlight : scheduler.worker.inFlight = some item := by rw [worker]; rfl
      dsimp only at inspected
      by_cases flag : scheduler.flags.getD item.cancellation false = true
      · rw [if_pos flag] at inspected
        rw [← Option.some.inj inspected]
        apply coherent_turn coherent held inFlight rfl rfl
        exact begun.trans (List.sublist_append_left _ _)
      · rw [if_neg flag] at inspected
        rw [← Option.some.inj inspected]
        apply coherent_turn coherent held inFlight rfl rfl
        exact begun.append (List.Sublist.refl [item])
  | _ =>
      rw [worker] at inspected
      cases inspected

theorem taskReturns_coherent (coherent : Coherent maxPendingRequests scheduler)
    {result : RequestTaskResult Json} (returned : scheduler.taskReturns result = some next) :
    Coherent maxPendingRequests next := by
  unfold taskReturns at returned
  cases worker : scheduler.worker with
  | running item =>
      rw [worker] at returned
      rw [← Option.some.inj returned]
      have begun := coherent.begun
      rw [worker] at begun
      have held : scheduler.worker.held = some item := by rw [worker]; rfl
      have inFlight : scheduler.worker.inFlight = some item := by rw [worker]; rfl
      exact coherent_turn coherent held inFlight rfl rfl begun
  | _ =>
      rw [worker] at returned
      cases returned

theorem release_coherent (coherent : Coherent maxPendingRequests scheduler)
    (released : scheduler.release = some next) : Coherent maxPendingRequests next := by
  unfold release at released
  cases worker : scheduler.worker with
  | finished item result =>
      rw [worker] at released
      rw [← Option.some.inj released]
      have outstanding : scheduler.outstanding = item :: scheduler.queue := by
        rw [outstanding, worker]
        rfl
      have distinct := coherent.distinct
      rw [trackedKeys, coherent.tracked, outstanding, List.map_map, List.map_cons,
        List.nodup_cons] at distinct
      -- The key of the request in flight is the first of the distinct keys.
      have remaining : (scheduler.requestStates.filter fun entry => entry.1 != item.requestKey) =
          scheduler.queue.map fun item => (item.requestKey, item.cancellation) := by
        rw [coherent.tracked, outstanding, List.map_cons, List.filter_cons_of_neg (by simp),
          List.filter_eq_self]
        intro entry member
        apply bne_iff_ne.mpr
        intro same
        have ⟨queued, inside, image⟩ := List.mem_map.mp member
        rw [← image] at same
        exact distinct.1 (List.mem_map.mpr ⟨queued, inside, same⟩)
      constructor
      · rw [coherent.history, worker]
        rfl
      · exact coherent.addresses
      · exact remaining
      · exact coherent.distinct.sublist (List.Sublist.map _ List.filter_sublist)
      · exact Nat.le_trans (List.length_filter_le _ _) coherent.bounded
      · have begun := coherent.begun
        rw [worker] at begun
        exact begun
      · nofun
  | _ =>
      rw [worker] at released
      cases released

theorem complete_coherent (coherent : Coherent maxPendingRequests scheduler)
    {latencyMicros : ℕ} (completed : scheduler.complete latencyMicros = some next) :
    Coherent maxPendingRequests next := by
  unfold complete at completed
  cases worker : scheduler.worker with
  | released item result =>
      rw [worker] at completed
      rw [← Option.some.inj completed]
      constructor
      · show scheduler.accepted = List.map _ (scheduler.completed ++ [_]) ++ _
        rw [coherent.history, worker, List.map_append, List.append_assoc]
        rfl
      · exact coherent.addresses
      · rw [coherent.tracked, outstanding, worker]
        rfl
      · exact coherent.distinct
      · exact coherent.bounded
      · show scheduler.started.Sublist (List.map _ (scheduler.completed ++ [_]) ++ [])
        have begun := coherent.begun
        rw [worker] at begun
        rw [List.map_append, List.append_nil]
        exact begun
      · nofun
  | _ =>
      rw [worker] at completed
      cases completed

end Step

theorem step_coherent :
    Preserves (@step Task Completion Json _ maxPendingRequests)
      (Coherent maxPendingRequests) := by
  intro scheduler event next coherent stepped
  cases event with
  | enqueue requestKey method task completion =>
      rw [← Option.some.inj stepped]
      exact enqueue_coherent coherent requestKey method task completion
  | cancel requestKey =>
      rw [← Option.some.inj stepped]
      exact cancel_coherent coherent requestKey
  | shutdown =>
      rw [← Option.some.inj stepped]
      exact shutdown_coherent coherent
  | take => exact take_coherent coherent stepped
  | inspect => exact inspect_coherent coherent stepped
  | taskReturns result => exact taskReturns_coherent coherent stepped
  | taskThrows what => exact taskReturns_coherent coherent stepped
  | release => exact release_coherent coherent stepped
  | complete latencyMicros => exact complete_coherent coherent stepped

section Consequences

variable {scheduler : Scheduler Task Completion Json}

theorem accepted_distinct (coherent : Coherent maxPendingRequests scheduler) :
    (scheduler.accepted.map WorkItem.cancellation).Nodup := by
  rw [coherent.addresses]
  exact List.nodup_range

theorem completed_accepted (coherent : Coherent maxPendingRequests scheduler) :
    scheduler.completedItems <+: scheduler.accepted := by
  rw [coherent.history]
  exact List.prefix_append _ _

theorem started_accepted (coherent : Coherent maxPendingRequests scheduler) :
    scheduler.started.Sublist scheduler.accepted := by
  apply coherent.begun.trans
  rw [coherent.history]
  apply List.Sublist.append_left
  exact (Worker.inspected_sublist_held _).trans (List.sublist_append_left _ _)

theorem drained_completed (coherent : Coherent maxPendingRequests scheduler)
    (drained : scheduler.Drained) : scheduler.completedItems = scheduler.accepted := by
  rw [coherent.history, drained.2.1, drained.2.2]
  exact (List.append_nil _).symm

theorem exited_drained (coherent : Coherent maxPendingRequests scheduler)
    (exited : scheduler.worker = .exited) : scheduler.Drained := by
  refine ⟨(coherent.exited exited).2, (coherent.exited exited).1, ?_⟩
  rw [exited]
  rfl

/-- A queued request shares its flag with no request ahead of the queue. -/
theorem queued_apart (coherent : Coherent maxPendingRequests scheduler)
    {item other : WorkItem Task Completion} (queued : item ∈ scheduler.queue)
    (ahead : other ∈ scheduler.completedItems ++ scheduler.worker.held.toList) :
    other.cancellation ≠ item.cancellation := by
  have distinct := accepted_distinct coherent
  rw [coherent.history, ← List.append_assoc, List.map_append] at distinct
  exact (List.nodup_append.mp distinct).2.2 _ (List.mem_map_of_mem ahead) _
    (List.mem_map_of_mem queued)

/-- The map finds the flag of the request itself under the key of a queued request. -/
theorem find_queued (coherent : Coherent maxPendingRequests scheduler)
    {item : WorkItem Task Completion} (queued : item ∈ scheduler.queue) :
    scheduler.requestStates.find? (fun entry => entry.1 == item.requestKey) =
      some (item.requestKey, item.cancellation) := by
  have tracked : (item.requestKey, item.cancellation) ∈ scheduler.requestStates := by
    rw [coherent.tracked]
    exact List.mem_map.mpr ⟨item, List.mem_append_right _ queued, rfl⟩
  have distinct := coherent.distinct
  unfold trackedKeys at distinct
  revert tracked distinct
  induction scheduler.requestStates with
  | nil => exact fun tracked => nomatch tracked
  | cons entry rest ih =>
      intro tracked distinct
      rw [List.map_cons, List.nodup_cons] at distinct
      rcases List.mem_cons.mp tracked with here | later
      · rw [← here]
        exact List.find?_cons_of_pos (beq_self_eq_true _)
      · have differs : entry.1 ≠ item.requestKey := by
          intro same
          exact distinct.1 (List.mem_map.mpr ⟨_, later, same.symm⟩)
        rw [List.find?_cons_of_neg (by rw [beq_iff_eq]; exact differs)]
        exact ih later distinct.2

end Consequences

/-! ### A request cancelled before its task starts -/

/-- The flag is set, and no step so far ran the task or answered otherwise. -/
structure NeverRuns (cancellation : ℕ) (scheduler : Scheduler Task Completion Json) : Prop where
  flagged : scheduler.flags.getD cancellation false = true
  notStarted : ∀ item ∈ scheduler.started, item.cancellation ≠ cancellation
  notRunning : ∀ item, scheduler.worker = .running item → item.cancellation ≠ cancellation
  finished : ∀ item result, scheduler.worker = .finished item result →
    item.cancellation = cancellation → result.status = .cancelled
  released : ∀ item result, scheduler.worker = .released item result →
    item.cancellation = cancellation → result.status = .cancelled
  completed : ∀ entry ∈ scheduler.completed,
    entry.item.cancellation = cancellation → entry.result.status = .cancelled

/-- Every flag set before is set after. -/
def FlagsRise (before after : List Bool) : Prop :=
  ∀ cancellation, before.getD cancellation false = true → after.getD cancellation false = true

theorem flagsRise_set (flags : List Bool) (address : ℕ) :
    FlagsRise flags (flags.set address true) := by
  intro cancellation flagged
  rw [List.getD_eq_getElem?_getD] at flagged ⊢
  by_cases same : address = cancellation
  · rw [same, List.getElem?_set_self']
    cases here : flags[cancellation]? with
    | none =>
        rw [here] at flagged
        exact absurd flagged Bool.false_ne_true
    | some flag => rfl
  · rw [List.getElem?_set_ne same]
    exact flagged

theorem flagsRise_append (flags : List Bool) (flag : Bool) :
    FlagsRise flags (flags ++ [flag]) := by
  intro cancellation flagged
  have inside : cancellation < flags.length := by
    by_contra outside
    rw [List.getD_eq_default _ _ (Nat.le_of_not_lt outside)] at flagged
    exact absurd flagged Bool.false_ne_true
  rw [List.getD_append _ _ _ _ inside]
  exact flagged

theorem flagsRise_foldl_set (entries : List (String × ℕ)) (flags : List Bool) :
    FlagsRise flags (entries.foldl (fun flags entry => flags.set entry.2 true) flags) := by
  induction entries generalizing flags with
  | nil => exact fun _ flagged => flagged
  | cons entry rest ih =>
      intro cancellation flagged
      exact ih _ _ (flagsRise_set flags entry.2 _ flagged)

section NeverRuns

variable {scheduler next : Scheduler Task Completion Json} {cancellation : ℕ}

/-- A call from outside changes neither the worker nor what it has done. -/
theorem neverRuns_call (never : NeverRuns cancellation scheduler)
    (worker : next.worker = scheduler.worker) (started : next.started = scheduler.started)
    (completed : next.completed = scheduler.completed)
    (flags : FlagsRise scheduler.flags next.flags) : NeverRuns cancellation next where
  flagged := flags _ never.flagged
  notStarted := started ▸ never.notStarted
  notRunning := worker ▸ never.notRunning
  finished := worker ▸ never.finished
  released := worker ▸ never.released
  completed := completed ▸ never.completed

theorem neverRuns_enqueue (never : NeverRuns cancellation scheduler)
    (requestKey method : String) (task : Task) (completion : Option Completion) :
    NeverRuns cancellation
      (scheduler.enqueue maxPendingRequests requestKey method task completion).2 := by
  unfold enqueue
  split_ifs
  · exact never
  · exact never
  · exact never
  · exact neverRuns_call never rfl rfl rfl (flagsRise_append _ _)

theorem neverRuns_cancel (never : NeverRuns cancellation scheduler) (requestKey : String) :
    NeverRuns cancellation (scheduler.cancel requestKey).2 := by
  unfold cancel
  cases found : scheduler.requestStates.find? (fun entry => entry.1 == requestKey) with
  | none => exact never
  | some entry => exact neverRuns_call never rfl rfl rfl (flagsRise_set _ _)

theorem neverRuns_shutdown (never : NeverRuns cancellation scheduler) :
    NeverRuns cancellation scheduler.shutdown := by
  unfold shutdown
  by_cases stopping : scheduler.stopping = true
  · rw [if_pos stopping]
    exact never
  · rw [if_neg stopping]
    exact neverRuns_call never rfl rfl rfl (flagsRise_foldl_set _ _)

theorem neverRuns_take (never : NeverRuns cancellation scheduler)
    (taken : scheduler.take = some next) : NeverRuns cancellation next := by
  unfold take at taken
  cases worker : scheduler.worker with
  | waiting =>
      cases queue : scheduler.queue with
      | nil =>
          rw [worker, queue] at taken
          rw [← Option.some.inj taken]
          by_cases stopping : scheduler.stopping = true
          · rw [if_pos stopping]
            exact ⟨never.flagged, never.notStarted, nofun, nofun, nofun, never.completed⟩
          · rw [if_neg stopping]
            exact never
      | cons item rest =>
          rw [worker, queue] at taken
          rw [← Option.some.inj taken]
          exact ⟨never.flagged, never.notStarted, nofun, nofun, nofun, never.completed⟩
  | _ =>
      rw [worker] at taken
      cases taken

theorem neverRuns_inspect (never : NeverRuns cancellation scheduler)
    (inspected : scheduler.inspect = some next) : NeverRuns cancellation next := by
  unfold inspect at inspected
  cases worker : scheduler.worker with
  | popped item =>
      rw [worker] at inspected
      dsimp only at inspected
      by_cases flag : scheduler.flags.getD item.cancellation false = true
      · rw [if_pos flag] at inspected
        rw [← Option.some.inj inspected]
        refine ⟨never.flagged, never.notStarted, nofun, ?_, nofun, never.completed⟩
        intro other result here _
        cases here
        rfl
      · rw [if_neg flag] at inspected
        rw [← Option.some.inj inspected]
        have other : item.cancellation ≠ cancellation := by
          intro same
          exact flag (same ▸ never.flagged)
        refine ⟨never.flagged, ?_, ?_, nofun, nofun, never.completed⟩
        · intro begun member
          rcases List.mem_append.mp member with earlier | new
          · exact never.notStarted begun earlier
          · rw [List.mem_singleton.mp new]
            exact other
        · intro begun here
          cases here
          exact other
  | _ =>
      rw [worker] at inspected
      cases inspected

theorem neverRuns_taskReturns (never : NeverRuns cancellation scheduler)
    {result : RequestTaskResult Json} (returned : scheduler.taskReturns result = some next) :
    NeverRuns cancellation next := by
  unfold taskReturns at returned
  cases worker : scheduler.worker with
  | running item =>
      rw [worker] at returned
      rw [← Option.some.inj returned]
      refine ⟨never.flagged, never.notStarted, nofun, ?_, nofun, never.completed⟩
      intro other answer here same
      cases here
      exact absurd same (never.notRunning item worker)
  | _ =>
      rw [worker] at returned
      cases returned

theorem neverRuns_release (never : NeverRuns cancellation scheduler)
    (released : scheduler.release = some next) : NeverRuns cancellation next := by
  unfold release at released
  cases worker : scheduler.worker with
  | finished item result =>
      rw [worker] at released
      rw [← Option.some.inj released]
      refine ⟨never.flagged, never.notStarted, nofun, nofun, ?_, never.completed⟩
      intro other answer here same
      cases here
      exact never.finished item result worker same
  | _ =>
      rw [worker] at released
      cases released

theorem neverRuns_complete (never : NeverRuns cancellation scheduler) {latencyMicros : ℕ}
    (completed : scheduler.complete latencyMicros = some next) : NeverRuns cancellation next := by
  unfold complete at completed
  cases worker : scheduler.worker with
  | released item result =>
      rw [worker] at completed
      rw [← Option.some.inj completed]
      refine ⟨never.flagged, never.notStarted, nofun, nofun, nofun, ?_⟩
      intro entry member same
      rcases List.mem_append.mp member with earlier | new
      · exact never.completed entry earlier same
      · rw [List.mem_singleton.mp new] at same ⊢
        exact never.released item result worker same
  | _ =>
      rw [worker] at completed
      cases completed

end NeverRuns

theorem step_neverRuns (cancellation : ℕ) :
    Preserves (@step Task Completion Json _ maxPendingRequests)
      (NeverRuns cancellation) := by
  intro scheduler event next never stepped
  cases event with
  | enqueue requestKey method task completion =>
      rw [← Option.some.inj stepped]
      exact neverRuns_enqueue never requestKey method task completion
  | cancel requestKey =>
      rw [← Option.some.inj stepped]
      exact neverRuns_cancel never requestKey
  | shutdown =>
      rw [← Option.some.inj stepped]
      exact neverRuns_shutdown never
  | take => exact neverRuns_take never stepped
  | inspect => exact neverRuns_inspect never stepped
  | taskReturns result => exact neverRuns_taskReturns never stepped
  | taskThrows what => exact neverRuns_taskReturns never stepped
  | release => exact neverRuns_release never stepped
  | complete latencyMicros => exact neverRuns_complete never stepped

/-- Cancelling the key of a queued request settles its fate, whatever follows. -/
theorem cancel_queued {scheduler : Scheduler Task Completion Json}
    (coherent : Coherent maxPendingRequests scheduler) {item : WorkItem Task Completion}
    (queued : item ∈ scheduler.queue) :
    NeverRuns item.cancellation (scheduler.cancel item.requestKey).2 := by
  unfold cancel
  rw [find_queued coherent queued]
  have apart : ∀ other ∈ scheduler.completedItems ++ scheduler.worker.held.toList,
      other.cancellation ≠ item.cancellation := fun other => queued_apart coherent queued
  have accepted : item ∈ scheduler.accepted := by
    rw [coherent.history, ← List.append_assoc]
    exact List.mem_append_right _ queued
  constructor
  · have inside : item.cancellation < scheduler.flags.length := by
      rw [← List.mem_range, ← coherent.addresses]
      exact List.mem_map_of_mem accepted
    show (scheduler.flags.set item.cancellation true).getD item.cancellation false = true
    rw [List.getD_eq_getElem?_getD, List.getElem?_set_self inside]
    rfl
  · intro begun member
    apply apart
    apply List.Sublist.subset _ member
    apply coherent.begun.trans
    apply List.Sublist.append_left
    exact Worker.inspected_sublist_held _
  · intro running here
    have here : scheduler.worker = .running running := here
    apply apart
    rw [here]
    exact List.mem_append_right _ (List.mem_singleton.mpr rfl)
  · intro finished result here same
    have here : scheduler.worker = .finished finished result := here
    apply absurd same
    apply apart
    rw [here]
    exact List.mem_append_right _ (List.mem_singleton.mpr rfl)
  · intro released result here same
    have here : scheduler.worker = .released released result := here
    apply absurd same
    apply apart
    rw [here]
    exact List.mem_append_right _ (List.mem_singleton.mpr rfl)
  · intro entry member same
    apply absurd same
    apply apart
    exact List.mem_append_left _ (List.mem_map_of_mem member)

/-! ### Every interleaving -/

theorem step_accepted (item : WorkItem Task Completion) :
    Preserves (@step Task Completion Json _ maxPendingRequests)
      (fun scheduler => item ∈ scheduler.accepted) := by
  intro scheduler event next member stepped
  have member : item ∈ scheduler.accepted := member
  show item ∈ next.accepted
  unfold step at stepped
  cases event with
  | enqueue requestKey method task completion =>
      rw [← Option.some.inj stepped]
      unfold enqueue
      split_ifs
      · exact member
      · exact member
      · exact member
      · exact List.mem_append_left _ member
  | cancel requestKey =>
      rw [← Option.some.inj stepped]
      unfold cancel
      split
      · exact member
      · exact member
  | shutdown =>
      rw [← Option.some.inj stepped]
      unfold shutdown
      split_ifs
      · exact member
      · exact member
  | take =>
      have taken : scheduler.take = some next := stepped
      unfold take at taken
      split at taken
      · rw [← Option.some.inj taken]
        split_ifs
        · exact member
        · exact member
      · rw [← Option.some.inj taken]
        exact member
      · cases taken
  | inspect =>
      have inspected : scheduler.inspect = some next := stepped
      unfold inspect at inspected
      split at inspected
      · split_ifs at inspected
        · rw [← Option.some.inj inspected]
          exact member
        · rw [← Option.some.inj inspected]
          exact member
      · cases inspected
  | taskReturns result =>
      have returned : scheduler.taskReturns result = some next := stepped
      unfold taskReturns at returned
      split at returned
      · rw [← Option.some.inj returned]
        exact member
      · cases returned
  | taskThrows what =>
      have returned : scheduler.taskThrows what = some next := stepped
      unfold taskThrows taskReturns at returned
      split at returned
      · rw [← Option.some.inj returned]
        exact member
      · cases returned
  | release =>
      have released : scheduler.release = some next := stepped
      unfold release at released
      split at released
      · rw [← Option.some.inj released]
        exact member
      · cases released
  | complete latencyMicros =>
      have completed : scheduler.complete latencyMicros = some next := stepped
      unfold complete at completed
      split at completed
      · rw [← Option.some.inj completed]
        exact member
      · cases completed

theorem callbacks_completions (scheduler : Scheduler Task Completion Json) :
    scheduler.callbacks.map Prod.fst = scheduler.completedItems.filterMap WorkItem.completion := by
  unfold callbacks completedItems
  rw [List.filterMap_map, List.map_filterMap]
  apply List.filterMap_congr
  intro entry _
  cases here : entry.item.completion with
  | none => simp only [Option.map_none, Function.comp_apply, here]
  | some completion => simp only [Option.map_some, Function.comp_apply, here]

/-- The fate of a request whose key is cancelled while it is queued. -/
theorem cancelled_while_queued {before after : List (Event Task Completion Json)}
    {earlier final : Scheduler Task Completion Json} {item : WorkItem Task Completion}
    (reached : runFrom (step maxPendingRequests) {} before = some earlier)
    (queued : item ∈ earlier.queue)
    (ran : runFrom (step maxPendingRequests) {}
      (before ++ .cancel item.requestKey :: after) = some final) :
    NeverRuns item.cancellation final ∧ item ∈ final.accepted := by
  have coherent : Coherent maxPendingRequests earlier :=
    step_coherent.run initial_coherent reached
  have ⟨middle, first, second⟩ := runFrom_append.mp ran
  rw [reached] at first
  rw [← Option.some.inj first] at second
  have ⟨next, stepped, later⟩ := runFrom_cons.mp second
  have never : NeverRuns item.cancellation next := by
    rw [← Option.some.inj stepped]
    exact cancel_queued coherent queued
  have accepted : item ∈ earlier.accepted := by
    rw [coherent.history, ← List.append_assoc]
    exact List.mem_append_right _ queued
  constructor
  · exact (step_neverRuns item.cancellation).run never later
  · exact (step_accepted item).run accepted second

/-- Tracked keys, order of starts, single completion, and cancellation in the queue. -/
theorem interleaving_safe (maxPendingRequests : ℕ) (events : List (Event Task Completion Json))
    (final : Scheduler Task Completion Json)
    (ran : runFrom (step maxPendingRequests) {} events = some final) :
    (final.trackedKeys = final.outstanding.map WorkItem.requestKey ∧
      final.trackedKeys.Nodup ∧ final.trackedKeys.length ≤ maxPendingRequests) ∧
    ((final.accepted.map WorkItem.cancellation).Nodup ∧
      final.started.Sublist final.accepted) ∧
    (final.completedItems <+: final.accepted ∧
      (final.Drained → final.completedItems = final.accepted ∧
        final.callbacks.map Prod.fst = final.accepted.filterMap WorkItem.completion)) ∧
    ∀ before after earlier item, events = before ++ .cancel item.requestKey :: after →
      runFrom (step maxPendingRequests) {} before = some earlier → item ∈ earlier.queue →
      item ∉ final.started ∧
        (∀ entry ∈ final.completed, entry.item = item → entry.result.status = .cancelled) ∧
        (final.Drained → ∃ entry ∈ final.completed, entry.item = item) := by
  have coherent : Coherent maxPendingRequests final := step_coherent.run initial_coherent ran
  refine ⟨⟨?_, coherent.distinct, ?_⟩, ⟨accepted_distinct coherent, started_accepted coherent⟩,
    ⟨completed_accepted coherent, ?_⟩, ?_⟩
  · unfold trackedKeys
    rw [coherent.tracked, List.map_map]
    rfl
  · unfold trackedKeys
    rw [List.length_map]
    exact coherent.bounded
  · intro drained
    have all := drained_completed coherent drained
    refine ⟨all, ?_⟩
    rw [callbacks_completions, all]
  · intro before after earlier item split reached queued
    rw [split] at ran
    have ⟨never, accepted⟩ := cancelled_while_queued reached queued ran
    refine ⟨fun started => never.notStarted item started rfl, ?_, ?_⟩
    · intro entry member same
      exact never.completed entry member (congrArg WorkItem.cancellation same)
    · intro drained
      rw [← drained_completed coherent drained] at accepted
      exact List.mem_map.mp accepted

/-- Two requests, the second cancelled in the queue, then shutdown and the drain. -/
def twoRequests : List (Event Unit Unit Unit) :=
  [.enqueue "1" "hover" () (some ()), .enqueue "2" "rename" () none, .take, .cancel "2",
    .inspect, .taskReturns { status := .completed }, .release, .enqueue "1" "hover" () (some ()),
    .complete 7, .shutdown, .take, .inspect, .release, .complete 0, .take, .inspect, .release,
    .complete 0, .take]

theorem interleaving_safe_twoRequests :
    ∃ final, runFrom (step 2) {} twoRequests = some final ∧ final.Drained ∧
      final.completedItems = final.accepted ∧ final.started.Sublist final.accepted := by
  have ran : runFrom (step 2) {} twoRequests =
      some ((runFrom (step 2) {} twoRequests).get (by decide)) := (Option.some_get _).symm
  have ⟨_, order, completed, _⟩ := interleaving_safe 2 twoRequests _ ran
  have drained : ((runFrom (step 2) {} twoRequests).get (by decide)).Drained := ⟨rfl, rfl, rfl⟩
  exact ⟨_, ran, drained, (completed.2 drained).1, order.2⟩

/-! ### The drain -/

def Event.ofWorker : Event Task Completion Json → Bool
  | .enqueue .. | .cancel _ | .shutdown => false
  | _ => true

/-- The most steps the worker still makes once the scheduler is stopping. -/
def stepsLeft (scheduler : Scheduler Task Completion Json) : ℕ :=
  5 * scheduler.queue.length +
    match scheduler.worker with
    | .exited => 0
    | .waiting => 1
    | .released _ _ => 2
    | .finished _ _ => 3
    | .running _ => 4
    | .popped _ => 5

/-- Once stopping, nothing more is accepted, and each step of the worker is one fewer to make. -/
theorem step_drains {scheduler next : Scheduler Task Completion Json}
    {event : Event Task Completion Json} (stopping : scheduler.stopping = true)
    (stepped : step maxPendingRequests scheduler event = some next) :
    next.stopping = true ∧ next.accepted = scheduler.accepted ∧
      event.ofWorker.toNat + next.stepsLeft ≤ scheduler.stepsLeft := by
  -- a call touches neither the queue nor the worker; a worker's step is one branch of its function
  cases event <;>
    simp only [step, enqueue, shutdown, stopping, cancel, take, inspect, taskReturns, taskThrows,
      release, complete, if_true] at stepped <;>
    (try split at stepped) <;> (try split at stepped) <;> cases stepped <;>
    simp [*, stepsLeft, Event.ofWorker] <;> omega

theorem run_drains {scheduler final : Scheduler Task Completion Json}
    {events : List (Event Task Completion Json)} (stopping : scheduler.stopping = true)
    (ran : runFrom (step maxPendingRequests) scheduler events = some final) :
    final.accepted = scheduler.accepted ∧
      events.countP Event.ofWorker + final.stepsLeft ≤ scheduler.stepsLeft := by
  induction events generalizing scheduler with
  | nil => simp [← Option.some.inj ran]
  | cons event rest ih =>
      have ⟨next, stepped, later⟩ := runFrom_cons.mp ran
      have ⟨still, accepted, fewer⟩ := step_drains stopping stepped
      have ⟨same, bound⟩ := ih still later
      rw [List.countP_cons]
      refine ⟨same.trans accepted, ?_⟩
      cases worker : event.ofWorker <;> simp [worker] at fewer ⊢ <;> omega

theorem worker_enabled {scheduler : Scheduler Task Completion Json}
    (working : scheduler.worker ≠ .exited) :
    ∃ event, event.ofWorker = true ∧ (step maxPendingRequests scheduler event).isSome := by
  cases worker : scheduler.worker with
  | waiting => exact ⟨.take, rfl, by cases queue : scheduler.queue <;> simp [step, take, *]⟩
  | popped item => exact ⟨.inspect, rfl, by simp only [step, inspect, worker]; split <;> rfl⟩
  | running item => exact ⟨.taskReturns {}, rfl, by simp [step, taskReturns, worker]⟩
  | finished item result => exact ⟨.release, rfl, by simp [step, release, worker]⟩
  | released item result => exact ⟨.complete 0, rfl, by simp [step, complete, worker]⟩
  | exited => exact absurd worker working

/-- However calls and worker interleave after shutdown, the worker makes at most `stepsLeft` steps
and is never stuck before it exits; once it has exited, all that was accepted before is completed. -/
theorem shutdown_drains {before after : List (Event Task Completion Json)}
    {stopped final : Scheduler Task Completion Json}
    (reached : runFrom (step maxPendingRequests) {} before = some stopped)
    (stopping : stopped.stopping = true)
    (ran : runFrom (step maxPendingRequests) stopped after = some final) :
    after.countP Event.ofWorker + final.stepsLeft ≤ stopped.stepsLeft ∧
      final.accepted = stopped.accepted ∧
      (final.worker ≠ .exited →
        ∃ event, event.ofWorker = true ∧ (step maxPendingRequests final event).isSome) ∧
      (final.worker = .exited → final.Drained ∧ final.completedItems = stopped.accepted) := by
  have ⟨accepted, bound⟩ := run_drains stopping ran
  have coherent : Coherent maxPendingRequests final :=
    step_coherent.run (step_coherent.run initial_coherent reached) ran
  refine ⟨bound, accepted, worker_enabled, ?_⟩
  intro exited
  have drained := exited_drained coherent exited
  exact ⟨drained, (drained_completed coherent drained).trans accepted⟩

/-- Shut down with two requests queued: eight steps drain them, and the ninth is the exit. -/
theorem shutdown_drains_twoRequests :
    let stopped := (runFrom (step 2) {} (twoRequests.take 10)).get (by decide)
    let final := (runFrom (step 2) stopped (twoRequests.drop 10)).get (by decide)
    (twoRequests.drop 10).countP Event.ofWorker ≤ stopped.stepsLeft ∧
      final.worker = .exited ∧ final.Drained ∧
      final.completedItems = stopped.accepted ∧ final.completedItems.length = 3 := by
  intro stopped final
  have drains := shutdown_drains (Option.some_get _).symm (rfl : stopped.stopping = true)
    (Option.some_get (rfl : (runFrom (step 2) stopped (twoRequests.drop 10)).isSome)).symm
  have exited : final.worker = .exited := rfl
  exact ⟨Nat.le_of_add_right_le drains.1, exited, (drains.2.2.2 exited).1,
    (drains.2.2.2 exited).2, rfl⟩

end Scheduler

end LlvmDsdl.LSP
