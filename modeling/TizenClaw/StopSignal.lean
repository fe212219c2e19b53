import TizenClaw.EventBus
import TizenClaw.SchedulerThreads

/-! Stopping the task scheduler and the event bus: the flag is stored and the threads are notified
without their mutexes. -/
namespace StopSignal

open ByteString WaitQueue TransitionSystem

/-- In runs in which no notification of `Stop` falls between a loop's last look at the flag and
its block, no wake-up is lost and `Stop` can return. -/
theorem stop_wakes_loops (α : Type*) :
    (∀ tr s, Run SchedulerThreads.threads tr s → (∀ x ∈ tr, SchedulerThreads.Timely x.1 x.2) →
      ¬ SchedulerThreads.Lost s ∧
        (SchedulerThreads.NotifiedExecutor s → SchedulerThreads.CanJoin s)) ∧
    ∀ tr (s : EventBus.State α), Run (EventBus.bus α) tr s →
      (∀ x ∈ tr, EventBus.Timely x.1 x.2) →
      ¬ EventBus.Lost s ∧ (s.stop = .joining → EventBus.CanJoin s) :=
  ⟨fun _ _ h hp => SchedulerThreads.run_wakes h hp, fun _ _ h hp => EventBus.run_wakes h hp⟩

section Scheduler

open SchedulerThreads

/-- Both loops are asleep when `Stop` comes. -/
def stopAsleep : List Event :=
  [.start, .scheduler, .scheduler, .scheduler, .queue .consume, .queue .consume, .queue .consume,
    .queue .consume, .stop, .stop, .stop, .stop]

/-- `Stop` notifies after the timer thread has seen the flag set and before it blocks. -/
def stopInPass : List Event :=
  [.start, .scheduler, .scheduler, .stop, .stop, .stop, .scheduler]

/-- `Stop` notifies after the executor has tested its predicate and before it blocks. -/
def stopBeforePark : List Event :=
  [.start, .queue .consume, .queue .consume, .queue .consume, .stop, .stop, .stop, .stop,
    .queue .consume]

theorem exists_run (es : List Event) (p : List (State × Event) → State → Bool)
    (h : ((execute step {} es).any fun x => p x.1 x.2) = true) :
    ∃ tr s, Run threads tr s ∧ p tr s = true :=
  Run.of_execute (fun _ _ _ h => h) rfl es p h

end Scheduler

section Bus

open EventBus

def busStopAsleep : List (Event Unit) :=
  [.start, .queue .consume, .queue .consume, .queue .consume, .queue .consume, .stop, .stop, .stop]

def busStopBeforePark : List (Event Unit) :=
  [.start, .queue .consume, .queue .consume, .queue .consume, .stop, .stop, .stop, .queue .consume]

theorem exists_bus_run (es : List (Event Unit))
    (p : List (State Unit × Event Unit) → State Unit → Bool)
    (h : ((execute step {} es).any fun x => p x.1 x.2) = true) :
    ∃ tr s, Run (bus Unit) tr s ∧ p tr s = true :=
  Run.of_execute (fun _ _ _ h => h) rfl es p h

end Bus

/-- Threads that sleep when `Stop` notifies them wake up. -/
theorem asleep_wakes :
    (∃ tr s, Run SchedulerThreads.threads tr s ∧ s.stop = .joiningScheduler ∧
      ¬ SchedulerThreads.Lost s ∧ SchedulerThreads.CanJoin s) ∧
    ∃ tr s, Run (EventBus.bus Unit) tr s ∧ s.stop = .joining ∧
      ¬ EventBus.Lost s ∧ EventBus.CanJoin s := by
  constructor
  · obtain ⟨tr, s, hr, hp⟩ := exists_run stopAsleep (fun tr s =>
      s.stop = .joiningScheduler ∧ ∀ x ∈ tr, SchedulerThreads.Timely x.1 x.2) (by decide)
    obtain ⟨hj, hp⟩ := of_decide_eq_true hp
    obtain ⟨hl, hc⟩ := (stop_wakes_loops Unit).1 tr s hr hp
    exact ⟨tr, s, hr, hj, hl, hc (.inl hj)⟩
  · obtain ⟨tr, s, hr, hp⟩ := exists_bus_run busStopAsleep (fun tr s =>
      s.stop = .joining ∧ ∀ x ∈ tr, EventBus.Timely x.1 x.2) (by decide)
    obtain ⟨hj, hp⟩ := of_decide_eq_true hp
    obtain ⟨hl, hc⟩ := (stop_wakes_loops Unit).2 tr s hr hp
    exact ⟨tr, s, hr, hj, hl, hc hj⟩

theorem not_producing {α : Type*} {q : Queue α} (hh : q.holder = none) (ha : q.announcing = 0) :
    ¬ Producing q := by
  rintro (⟨x, hx⟩ | hp)
  · rw [hh] at hx
    cases hx
  · omega

/-- Each of the three loops can block behind the last notification of `Stop`. -/
theorem stop_loses_wakeups :
    (∃ tr s, Run SchedulerThreads.threads tr s ∧ SchedulerThreads.Lost s ∧ s.scheduler = .blocked) ∧
    (∃ tr s, Run SchedulerThreads.threads tr s ∧ SchedulerThreads.Lost s ∧
      s.queue.consumer = .blocked) ∧
    ∃ tr s, Run (EventBus.bus Unit) tr s ∧ EventBus.Lost s := by
  refine ⟨?_, ?_, ?_⟩
  · obtain ⟨tr, s, hr, hp⟩ := exists_run stopInPass (fun _ s => s.running = false ∧
      s.stop = .wakingExecutor ∧ s.scheduler = .blocked ∧ s.tasks = none) (by decide)
    obtain ⟨hrunning, hstop, hb, ht⟩ := of_decide_eq_true hp
    exact ⟨tr, s, hr, ⟨hrunning, .inl ⟨.inl hstop, hb, by simp [ht]⟩⟩, hb⟩
  · obtain ⟨tr, s, hr, hp⟩ := exists_run stopBeforePark (fun _ s => s.running = false ∧
      s.stop = .joiningScheduler ∧ s.queue.consumer = .blocked ∧ s.queue.holder = none ∧
      s.queue.announcing = 0) (by decide)
    obtain ⟨hrunning, hstop, hb, hh, ha⟩ := of_decide_eq_true hp
    exact ⟨tr, s, hr, ⟨hrunning, .inr ⟨.inl hstop, hb, not_producing hh ha⟩⟩, hb⟩
  · obtain ⟨tr, s, hr, hp⟩ := exists_bus_run busStopBeforePark (fun _ s => s.running = false ∧
      s.stop = .joining ∧ s.queue.consumer = .blocked ∧ s.queue.holder = none ∧
      s.queue.announcing = 0) (by decide)
    obtain ⟨hrunning, hstop, hb, hh, ha⟩ := of_decide_eq_true hp
    exact ⟨tr, s, hr, hrunning, hstop, hb, not_producing hh ha⟩

end StopSignal
