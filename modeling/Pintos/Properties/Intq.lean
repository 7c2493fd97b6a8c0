import Pintos.Devices.Intq
import Pintos.Lib.Machine
import Pintos.Lib.RingBuffer

/-!
# Interrupt queues

The queue of `Pintos/Devices/Intq.lean` is a ring buffer (`Pintos/Lib/RingBuffer.lean`).

* `Buffers` — the bytes returned and those in the buffer are the bytes accepted
* `interrupt_queue_fifo` — so in every run, whoever puts and gets
* `wait_asserts_hold` — the condition under which the assertion in `wait` holds
-/

namespace Pintos

open Function Machine RingBuffer

/-- The bytes in the buffer, the oldest first. -/
def Intq.buffered (q : Intq) : List (BitVec 8) :=
  contents q.buf INTQ_BUFSIZE q.tail ((q.head + INTQ_BUFSIZE - q.tail) % INTQ_BUFSIZE)

/-- The queue has the bytes that were accepted and not yet returned. -/
def Buffers (s : IntqSys) : Prop :=
  ∃ cnt, Ring INTQ_BUFSIZE s.head s.tail cnt ∧
    s.returned ++ contents s.buf INTQ_BUFSIZE s.tail cnt = s.accepted

/-- Nothing but the queue of bytes counts. -/
structure SameBytes (s s' : IntqSys) : Prop where
  head : s'.head = s.head
  tail : s'.tail = s.tail
  buf : s'.buf = s.buf
  accepted : s'.accepted = s.accepted
  returned : s'.returned = s.returned

variable {s s' : IntqSys} {t : Tid} {op : IntqOp} {priority : Tid → Int} {q : Intq} {cnt : Nat}

/-- A change of other fields comes first. -/
theorem SameBytes.after {s₀ : IntqSys} (h : SameBytes s₀ s') (hq : s₀.head = s.head ∧ s₀.tail = s.tail ∧
    s₀.buf = s.buf ∧ s₀.accepted = s.accepted ∧ s₀.returned = s.returned) : SameBytes s s' :=
  ⟨h.head.trans hq.1, h.tail.trans hq.2.1, h.buf.trans hq.2.2.1, h.accepted.trans hq.2.2.2.1,
    h.returned.trans hq.2.2.2.2⟩

theorem Buffers.same (h : Buffers s) (hs : SameBytes s s') : Buffers s' := by
  unfold Buffers
  rw [hs.head, hs.tail, hs.buf, hs.accepted, hs.returned]
  exact h

theorem empty_iff (h : Ring INTQ_BUFSIZE q.head q.tail cnt) : q.empty = true ↔ cnt = 0 := by
  rw [Intq.empty, decide_eq_true_eq]
  exact h.empty_iff

theorem full_iff (h : Ring INTQ_BUFSIZE q.head q.tail cnt) :
    q.full = true ↔ cnt + 1 = INTQ_BUFSIZE := by
  rw [Intq.full, decide_eq_true_eq]
  exact h.full_iff

/-! ## `signal` and `wait` -/

theorem unblockWaiter_bytes (h : s.unblockWaiter t = .ok s') : SameBytes s s' := by
  unfold IntqSys.unblockWaiter at h
  split at h
  · cases h
    exact ⟨rfl, rfl, rfl, rfl, rfl⟩
  · cases h

theorem signalNotFull_bytes (h : s.signalNotFull = .ok s') : SameBytes s s' := by
  unfold IntqSys.signalNotFull at h
  split at h
  · cases h
  split at h
  · cases h
    exact ⟨rfl, rfl, rfl, rfl, rfl⟩
  · exact (unblockWaiter_bytes h).after ⟨rfl, rfl, rfl, rfl, rfl⟩

theorem signalNotEmpty_bytes (h : s.signalNotEmpty = .ok s') : SameBytes s s' := by
  unfold IntqSys.signalNotEmpty at h
  split at h
  · cases h
  split at h
  · cases h
    exact ⟨rfl, rfl, rfl, rfl, rfl⟩
  · exact (unblockWaiter_bytes h).after ⟨rfl, rfl, rfl, rfl, rfl⟩

theorem wait_bytes (h : s.wait t op = .ok s') : SameBytes s s' := by
  unfold IntqSys.wait at h
  split at h
  · split at h <;> cases h <;> exact ⟨rfl, rfl, rfl, rfl, rfl⟩
  · cases h

theorem acquire_bytes (h : s.acquire priority t op = .ok s') : SameBytes s s' := by
  unfold IntqSys.acquire at h
  split at h
  · cases h
    exact ⟨rfl, rfl, rfl, rfl, rfl⟩
  · exact (wait_bytes h).after ⟨rfl, rfl, rfl, rfl, rfl⟩

theorem release_bytes (h : s.release priority t = .ok s') : SameBytes s s' := by
  unfold IntqSys.release at h
  split at h
  · cases h
  split at h
  · cases h
    exact ⟨rfl, rfl, rfl, rfl, rfl⟩
  · split at h
    · cases h
      exact ⟨rfl, rfl, rfl, rfl, rfl⟩
    · cases h

/-! ## Bytes -/

/-- **A byte is taken or added** where the loop ends. -/
theorem Buffers.finish (h : Buffers s) (hop : s.mustWait op = false) (hs : s.finish op = .ok s') :
    Buffers s' := by
  obtain ⟨cnt, hring, hbytes⟩ := h
  cases op with
  | getc =>
    have hcnt : cnt ≠ 0 := fun hc => by
      rw [Intq.mustWait, (empty_iff hring).mpr hc] at hop
      cases hop
    obtain ⟨cnt, rfl⟩ := Nat.exists_eq_succ_of_ne_zero hcnt
    refine Buffers.same ⟨cnt, hring.pop, ?_⟩ (signalNotFull_bytes hs)
    rw [← hbytes, contents_pop hring]
    exact List.append_assoc _ _ _
  | putc byte =>
    have hfull : ¬ Intq.next s.head = s.tail := by
      simpa [Intq.mustWait, Intq.full] using hop
    refine Buffers.same ⟨cnt + 1, hring.push hfull, ?_⟩ (signalNotEmpty_bytes hs)
    show s.returned ++ contents (update s.buf s.head byte) INTQ_BUFSIZE s.tail (cnt + 1) =
      s.accepted ++ [byte]
    rw [contents_push hring, ← hbytes, List.append_assoc]

theorem Buffers.loop (h : Buffers s) (hs : s.loop priority t op = .ok s') : Buffers s' := by
  unfold IntqSys.loop at hs
  split at hs
  · split at hs
    · cases hs
    · exact h.same (acquire_bytes hs)
  · next hop =>
    have h' : Buffers (s.setPc t .user) := h
    have hop' : (s.setPc t .user).mustWait op = false := (Bool.not_eq_true _).mp hop
    exact h'.finish hop' hs

theorem Buffers.preserved {a : IntqAction} (h : Buffers s) (hs : s.step a = .ok s') : Buffers s' := by
  cases a with
  | call t op priority =>
    dsimp only [IntqSys.step] at hs
    split at hs
    · exact h.loop hs
    · cases hs
  | resume t priority yields =>
    dsimp only [IntqSys.step] at hs
    split at hs
    · exact h.loop hs
    · exact h.same (acquire_bytes hs)
    · split at hs
      · cases hs
      next s₁ hrel =>
      have h₁ := h.same (release_bytes hrel)
      split at hs
      · cases hs
        exact h₁
      · exact h₁.loop hs
    · cases hs
  | interrupt op =>
    dsimp only [IntqSys.step] at hs
    split at hs
    · cases hs
    · next hop => exact h.finish (by simpa using hop) hs

theorem Buffers.reach (h : Reach IntqSys.step Always IntqSys.boot s) : Buffers s :=
  h.invariant ⟨0, Ring.empty (by decide), rfl⟩ fun _ _ _ hi _ hs => hi.preserved hs

/--
**An interrupt queue is a lossless bounded FIFO**, for every interleaving of threads and interrupt
handlers that put and get bytes: the positions stay in the buffer, one place of it is always free,
and the bytes returned and then those in the buffer are the bytes accepted, in their order.
-/
theorem interrupt_queue_fifo (h : Reach IntqSys.step Always IntqSys.boot s) :
    s.head < INTQ_BUFSIZE ∧ s.tail < INTQ_BUFSIZE ∧ s.buffered.length ≤ INTQ_BUFSIZE - 1 ∧
      s.returned ++ s.buffered = s.accepted := by
  obtain ⟨cnt, hring, hbytes⟩ := Buffers.reach h
  have hcnt := hring.cnt_lt
  unfold Intq.buffered
  rw [← hring.cnt_eq, length_contents]
  exact ⟨hring.head_lt, hring.tail_lt, by omega, hbytes⟩

/-! ## The assertions -/

/-- A thread that has slept in `lock_acquire` gets the lock only while it still has to wait. -/
def StillWaits (s : IntqSys) : IntqAction → Prop
  | .resume t _ _ =>
    ∀ op, s.pc t = .acquireReady op → s.lock.value ≠ 0 → s.mustWait op = true
  | _ => True

theorem unblockWaiter_ne : s.unblockWaiter t ≠ .error .assertCondition := by
  unfold IntqSys.unblockWaiter
  split
  · exact fun hc => nomatch hc
  · exact fun hc => nomatch hc

/-- The condition `signal` asserts holds after a byte was taken or added. -/
theorem Buffers.finish_ne (h : Buffers s) (hop : s.mustWait op = false) :
    s.finish op ≠ .error .assertCondition := by
  obtain ⟨cnt, hring, -⟩ := h
  cases op with
  | getc =>
    have hcnt : cnt ≠ 0 := fun hc => by
      rw [Intq.mustWait, (empty_iff hring).mpr hc] at hop
      cases hop
    obtain ⟨cnt, rfl⟩ := Nat.exists_eq_succ_of_ne_zero hcnt
    have hlt := hring.cnt_lt
    dsimp only [IntqSys.finish]
    unfold IntqSys.signalNotFull
    rw [if_neg]
    · split
      · exact fun hc => nomatch hc
      · exact unblockWaiter_ne
    · intro hfull
      have hc := (full_iff (q := { s.toIntq with tail := Intq.next s.tail }) hring.pop).mp hfull
      omega
  | putc byte =>
    have hfull : ¬ Intq.next s.head = s.tail := by
      simpa [Intq.mustWait, Intq.full] using hop
    dsimp only [IntqSys.finish]
    unfold IntqSys.signalNotEmpty
    rw [if_neg]
    · split
      · exact fun hc => nomatch hc
      · exact unblockWaiter_ne
    · simpa [Intq.empty] using hfull

theorem wait_ne (hop : s.mustWait op = true) : s.wait t op ≠ .error .assertCondition := by
  unfold IntqSys.wait
  rw [if_pos hop]
  split
  · exact fun hc => nomatch hc
  · exact fun hc => nomatch hc

/-- The assertion in `wait` fails exactly for a thread that gets the lock too late. -/
theorem acquire_iff : s.acquire priority t op = .error .assertCondition ↔
    s.lock.value ≠ 0 ∧ s.mustWait op = false := by
  unfold IntqSys.acquire
  split
  · next h0 => exact iff_of_false (fun hc => nomatch hc) fun hc => hc.1 h0
  · next h0 =>
    cases hop : s.mustWait op with
    | true =>
      exact iff_of_false (wait_ne hop) fun hc => nomatch hc.2
    | false =>
      refine iff_of_true ?_ ⟨h0, rfl⟩
      unfold IntqSys.wait
      rw [if_neg]
      have hop' : Intq.mustWait { s.toIntq with lock := s.lock.decr, holder := some t } op = false := by
        cases op <;> exact hop
      simpa using hop'

theorem Buffers.loop_ne (h : Buffers s) : s.loop priority t op ≠ .error .assertCondition := by
  unfold IntqSys.loop
  split
  · next hop =>
    split
    · exact fun hc => nomatch hc
    · intro hc
      rw [(acquire_iff.mp hc).2] at hop
      cases hop
  · next hop =>
    have h' : Buffers (s.setPc t .user) := h
    have hop' : (s.setPc t .user).mustWait op = false := (Bool.not_eq_true _).mp hop
    exact h'.finish_ne hop'

theorem release_ne : s.release priority t ≠ .error .assertCondition := by
  unfold IntqSys.release
  split
  · exact fun hc => nomatch hc
  split
  · exact fun hc => nomatch hc
  · split
    · exact fun hc => nomatch hc
    · exact fun hc => nomatch hc

/--
**The assertions of `wait` and `signal` hold**, in every run of any number of threads and interrupt
handlers, exactly as long as a thread that has slept in `lock_acquire` gets the lock while the queue is
still empty, in `intq_getc`, or still full, in `intq_putc`.
-/
theorem wait_asserts_hold (h : Reach IntqSys.step Always IntqSys.boot s) (a : IntqAction) :
    s.step a ≠ .error .assertCondition ↔ StillWaits s a := by
  have hb := Buffers.reach h
  cases a with
  | call t op priority =>
    refine iff_of_true ?_ trivial
    dsimp only [IntqSys.step]
    split
    · exact hb.loop_ne
    · exact fun hc => nomatch hc
  | resume t priority yields =>
    unfold StillWaits
    dsimp only [IntqSys.step]
    split
    · next hpc => exact iff_of_true hb.loop_ne fun op hop => by rw [hpc] at hop; cases hop
    · next op hpc =>
      rw [ne_eq, acquire_iff, not_and, Bool.not_eq_false]
      constructor
      · intro hw op' hop'
        rw [hpc] at hop'
        cases hop'
        exact hw
      · exact fun hw => hw op hpc
    · next hpc =>
      refine iff_of_true ?_ fun op hop => by rw [hpc] at hop; cases hop
      split
      · next e he =>
        intro hc
        rw [Except.error.injEq] at hc
        rw [hc] at he
        exact release_ne he
      · next s₁ hrel =>
        split
        · exact fun hc => nomatch hc
        · exact (hb.same (release_bytes hrel)).loop_ne
    · next hpc _ => exact iff_of_true (fun hc => nomatch hc) fun op hop => absurd hop (hpc op)
  | interrupt op =>
    refine iff_of_true ?_ trivial
    dsimp only [IntqSys.step]
    split
    · exact fun hc => nomatch hc
    · next hop => exact hb.finish_ne (by simpa using hop)

/-- Two readers and two bytes: the first reader leaves one byte, and the second gets the lock. -/
theorem wait_assert_fails : ∃ s, Reach IntqSys.step Always IntqSys.boot s ∧
    s.step (.resume 2 (fun _ => 31) false) = .error .assertCondition := by
  have h : Reach IntqSys.step Always IntqSys.boot _ :=
    reach_of_exec [.call 1 .getc fun _ => 31, .call 2 .getc fun _ => 31, .interrupt (.putc 0x61),
      .interrupt (.putc 0x62), .resume 1 (fun _ => 31) false] rfl
  exact ⟨_, h, rfl⟩

/-- With one byte the second reader still has to wait when it gets the lock. -/
theorem wait_asserts_hold_one_byte : ∃ s : IntqSys, s.pc 2 = .acquireReady .getc ∧
    s.step (.resume 2 (fun _ => 31) false) ≠ .error .assertCondition := by
  have h : Reach IntqSys.step Always IntqSys.boot _ :=
    reach_of_exec [.call 1 .getc fun _ => 31, .call 2 .getc fun _ => 31, .interrupt (.putc 0x61),
      .resume 1 (fun _ => 31) false] rfl
  refine ⟨_, rfl, (wait_asserts_hold h _).mpr fun op hop _ => ?_⟩
  cases hop
  rfl

/-- A reader sleeps, a byte is put, the reader gets it, and another byte is put. -/
theorem interrupt_queue_fifo_two_bytes : ∃ s : IntqSys, s.accepted = [0x61, 0x62] ∧
    s.returned = [0x61] ∧ s.returned ++ s.buffered = s.accepted := by
  have h : Reach IntqSys.step Always IntqSys.boot _ :=
    reach_of_exec [.call 1 .getc fun _ => 31, .interrupt (.putc 0x61),
      .resume 1 (fun _ => 31) false, .call 3 (.putc 0x62) fun _ => 31] rfl
  obtain ⟨-, -, -, hfifo⟩ := interrupt_queue_fifo h
  exact ⟨_, rfl, rfl, hfifo⟩

end Pintos
