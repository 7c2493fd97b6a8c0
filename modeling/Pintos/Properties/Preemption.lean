import Pintos.Threads.Dispatch

/-!
# Preemption from the timer interrupt

`thread_awake` readies threads and compares no priority, so the running thread goes on until its time slice is over.

* `mem_threadAwakeFrom` — who is ready after the handler
* `preempts_iff` — **when the interrupt returns to a thread, it has the highest priority if and only if** it had it
  before, and no thread with a higher one was due
-/

namespace Pintos.Kernel

open Function Machine

/-- The interrupt returns to the thread with the highest priority, or it yields. -/
def Preempts (k : Kernel) (yields : Bool) : Prop :=
  yields = true ∨ ∀ t ∈ k.readyList, k.priority t ≤ k.priority k.current

/-- The time slice ends with this tick, or nobody that is ready then has a higher priority. -/
def KeepsFirst (k : Kernel) : Prop :=
  TIME_SLICE ≤ k.threadTicks + 1 ∨
    ∀ t, t ∈ k.readyList ∨ t ∈ k.sleepList ∧ k.awake t ≤ k.ticks + 1 → k.priority t ≤ k.priority k.current

section

variable {k k' : Kernel} {t : Tid} {l : List Tid} {ticks : Int} {recalculated : Tid → Int} {yields : Bool}

/-- `thread_unblock` in the loop of `thread_awake`. -/
theorem threadUnblock_spec (hk : k.threadUnblock t = .ok k') :
    (∀ u, u ∈ k'.readyList ↔ u = t ∨ u ∈ k.readyList) ∧ k'.priority = k.priority ∧ k'.current = k.current ∧
      k'.awake = k.awake := by
  unfold Kernel.threadUnblock at hk
  split at hk
  · cases hk
    exact ⟨fun u => mem_listInsertOrdered, rfl, rfl, rfl⟩
  · cases hk

/-- **The threads whose time has come are ready.** -/
theorem mem_threadAwakeFrom (hk : k.threadAwakeFrom ticks l = .ok k') :
    (∀ u, u ∈ k'.readyList ↔ u ∈ k.readyList ∨ u ∈ l ∧ k.awake u ≤ ticks) ∧ k'.priority = k.priority ∧
      k'.current = k.current := by
  induction l generalizing k with
  | nil =>
    cases hk
    exact ⟨fun u => by simp, rfl, rfl⟩
  | cons t l ih =>
    rw [Kernel.threadAwakeFrom] at hk
    split at hk
    · next hdue =>
      split at hk
      · next k₁ h₁ =>
        obtain ⟨hmem, hp, hc, ha⟩ := threadUnblock_spec h₁
        obtain ⟨hmem', hp', hc'⟩ := ih hk
        refine ⟨fun u => ?_, hp'.trans hp, hc'.trans hc⟩
        rw [hmem', hmem, ha, List.mem_cons]
        constructor
        · rintro ((rfl | hu) | ⟨hu, hle⟩)
          · exact .inr ⟨.inl rfl, hdue⟩
          · exact .inl hu
          · exact .inr ⟨.inr hu, hle⟩
        · rintro (hu | ⟨rfl | hu, hle⟩)
          · exact .inl (.inr hu)
          · exact .inl (.inl rfl)
          · exact .inr ⟨hu, hle⟩
      · cases hk
    · next hdue =>
      obtain ⟨hmem', hp', hc'⟩ := ih hk
      refine ⟨fun u => ?_, hp', hc'⟩
      rw [hmem', List.mem_cons]
      constructor
      · rintro (hu | ⟨hu, hle⟩)
        · exact .inl hu
        · exact .inr ⟨.inr hu, hle⟩
      · rintro (hu | ⟨rfl | hu, hle⟩)
        · exact .inl hu
        · exact absurd hle hdue
        · exact .inr ⟨hu, hle⟩

/--
**Preemption.** When the handler of the timer returns, a yield was asked for or nobody in `ready_list` has a higher
priority, if and only if the time slice is over or nobody that was ready or due had a higher priority.
-/
theorem preempts_iff (hmode : k.mlfqs = false) (hk : k.timerInterrupt recalculated = .ok (k', yields)) :
    k'.Preempts yields ↔ k.KeepsFirst := by
  simp only [Kernel.timerInterrupt] at hk
  split at hk
  · next k₁ h₁ =>
    obtain ⟨rfl, rfl⟩ := Prod.mk.inj (Except.ok.inj hk)
    obtain ⟨hmem, hp, hc⟩ := mem_threadAwakeFrom h₁
    have hp₁ : (k.ticked recalculated).priority = k.priority := by
      show (if k.mlfqs = true then recalculated else k.priority) = k.priority
      rw [hmode]
      rfl
    have hc₁ : (k.ticked recalculated).current = k.current := rfl
    unfold Preempts KeepsFirst
    rw [decide_eq_true_iff, hp, hp₁, hc, hc₁]
    simp only [hmem]
    exact Iff.rfl
  · cases hk

end

/-- Thread 3 with priority 40 sleeps until the first tick, and thread 1 with priority 31 runs. -/
def wokenHigher : List KernelAction := [.threadCreate 3 40, .threadUnblock, .comparePriority, .threadSleep 1]

/-- The tick makes thread 3 ready, and the interrupt returns to thread 1. -/
theorem preempts_not_at_once : ∃ k k' : Kernel, Reach step Always (Kernel.boot false (fun _ => 0) 1 2) k ∧
    k.timerInterrupt k.priority = .ok (k', false) ∧ k'.current = 1 ∧ 3 ∈ k'.readyList ∧
    k'.priority 1 < k'.priority 3 ∧ ¬ k'.Preempts false := by
  have h : Reach step Always (Kernel.boot false (fun _ => 0) 1 2) _ := reach_of_exec wokenHigher rfl
  refine ⟨_, _, h, rfl, rfl, List.mem_cons_self, by decide, ?_⟩
  rintro (hy | hp)
  · cases hy
  · exact absurd (hp 3 List.mem_cons_self) (by decide)

/-- With priority 31 for thread 3 too, the interrupt may return to thread 1. -/
theorem preempts_iff_equal : ∃ k k' : Kernel, Reach step Always (Kernel.boot false (fun _ => 0) 1 2) k ∧
    k.timerInterrupt k.priority = .ok (k', false) ∧ 3 ∈ k'.readyList ∧ (k'.Preempts false ↔ k.KeepsFirst) := by
  have h : Reach step Always (Kernel.boot false (fun _ => 0) 1 2) _ := reach_of_exec
    [.threadCreate 3 31, .threadUnblock, .comparePriority, .threadYield, .threadSleep 1] rfl
  refine ⟨_, _, h, rfl, List.mem_cons_self, ?_⟩
  exact preempts_iff rfl rfl

end Pintos.Kernel
